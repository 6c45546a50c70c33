import Mathlib.Data.Nat.Bitwise
import Mathlib.Data.Int.Bitwise
import Mathlib.Tactic.Ring
import RfClassGroups.PartialEuclid

/-! The bits of an integer: its length, windows of bits across limbs, remainders
modulo a power of two. -/

namespace RfClassGroups.Bicycl

open PartialEuclid

/-- `mpz_sizeinbase(n, 2)`, which is 1 for zero. -/
def nbits (n : Mpz) : ℕ := Nat.log2 n.natAbs + 1

/-- The integers whose bits an index of type `int` can count. -/
def FitsInt (n : Mpz) : Prop := nbits n ≤ 2 ^ 31

instance (n : Mpz) : Decidable (FitsInt n) := inferInstanceAs (Decidable (nbits n ≤ 2 ^ 31))

def tstbit (n : Mpz) (i : ℕ) : Bool := n.testBit i

def mod2k (n : Mpz) (k : ℕ) : Mpz := n % 2 ^ k

def divby2k (n : Mpz) (k : ℕ) : Mpz := n / 2 ^ k

/-- `mod2k_centered` for a remainder of one limb, whose bits are complemented. -/
def mod2kCentered (n : Mpz) (k : ℕ) : Mpz :=
  let r := mod2k n k
  if tstbit r (k - 1) then -mod2k (limbBase - 1 - r + 1) k else r

/-- `extract_bits`: the bits from `index` to `index - len + 1`, the sign left aside. -/
def extractBits (n : Mpz) (index len : ℕ) : ℕ :=
  let mask := 2 ^ len - 1
  let limbHigh := limb n.natAbs (index / 64)
  let im := index % 64
  let r :=
    if len ≤ im + 1 then limbHigh >>> (im + 1 - len)
    else
      let limbLow := if index + 1 < len then 0 else limb n.natAbs ((index + 1 - len) / 64)
      (limbHigh <<< (len - im - 1)) % limbBase ||| limbLow >>> (im + 1 + 64 - len)
  r &&& mask

theorem nbits_le {n d : ℕ} (hd : 1 ≤ d) (hn : n < 2 ^ d) : nbits n ≤ d := by
  rw [nbits, Int.natAbs_natCast, Nat.succ_le_iff]
  by_cases h0 : n = 0
  · rw [h0, Nat.log2_zero]
    exact hd
  · exact (Nat.log2_lt h0).mpr hn

theorem nbits_mono {m n : ℕ} (h : m ≤ n) : nbits m ≤ nbits n :=
  nbits_le (Nat.le_add_left 1 _) (h.trans_lt Nat.lt_log2_self)

theorem FitsInt.mono {m n : ℕ} (hn : FitsInt n) (h : m ≤ n) : FitsInt m :=
  (nbits_mono h).trans hn

theorem mod2kCentered_eq (n : ℤ) {k : ℕ} (hk : 1 ≤ k) (hk' : k ≤ 64) :
    mod2kCentered n k = n % 2 ^ k ∧ n % 2 ^ k < 2 ^ (k - 1) ∨
      mod2kCentered n k = n % 2 ^ k - 2 ^ k ∧ 2 ^ (k - 1) ≤ n % 2 ^ k := by
  have hhalf : (2 : ℤ) ^ k = 2 * 2 ^ (k - 1) := by rw [← pow_succ', show k - 1 + 1 = k by omega]
  have hpos : (0 : ℤ) < 2 ^ (k - 1) := by positivity
  have hlow := Int.emod_nonneg n (show (2 : ℤ) ^ k ≠ 0 by positivity)
  have hup := Int.emod_lt_of_pos n (show (0 : ℤ) < 2 ^ k by positivity)
  unfold mod2kCentered mod2k tstbit
  obtain ⟨r, hr⟩ := Int.eq_ofNat_of_zero_le hlow
  rw [hr] at hup ⊢
  dsimp only
  have hbit : (r : ℤ).testBit (k - 1) = r.testBit (k - 1) := rfl
  rw [hbit]
  by_cases hge : 2 ^ (k - 1) ≤ r
  · have hset : r.testBit (k - 1) = true := by
      have hdiv : r / 2 ^ (k - 1) = 1 := by
        apply Nat.div_eq_of_lt_le
        · rwa [one_mul]
        · zify
          linarith
      rw [Nat.testBit_eq_decide_div_mod_eq, hdiv]
      rfl
    have hdvd : (2 : ℤ) ^ k ∣ (limbBase : ℤ) := by
      rw [limbBase]
      push_cast
      exact pow_dvd_pow 2 hk'
    have hrest : ((limbBase : ℤ) - 1 - r + 1) % 2 ^ k = 2 ^ k - r := by
      obtain ⟨c, hc⟩ := hdvd
      have hr' : (2 ^ (k - 1) : ℤ) ≤ r := by exact_mod_cast hge
      have hsum : (limbBase : ℤ) - 1 - r + 1 = 2 ^ k - r + 2 ^ k * (c - 1) := by rw [hc]; ring
      rw [hsum, Int.add_mul_emod_self_left, Int.emod_eq_of_lt (by linarith) (by linarith)]
    right
    rw [if_pos hset, hrest]
    exact ⟨by ring, by exact_mod_cast hge⟩
  · have hclear : r.testBit (k - 1) = false := Nat.testBit_lt_two_pow (not_le.mp hge)
    left
    rw [hclear]
    exact ⟨rfl, by exact_mod_cast not_le.mp hge⟩

theorem testBit_limb (x i k : ℕ) : (limb x i).testBit k = (decide (k < 64) && x.testBit (64 * i + k)) := by
  have hbase : limbBase ^ i = 2 ^ (64 * i) := by rw [limbBase, pow_mul]
  rw [limb, hbase, limbBase, Nat.testBit_mod_two_pow, Nat.testBit_div_two_pow, Nat.add_comm]

/-- Bits below bit 0 are read as zeros. -/
theorem extractBits_eq (n : Mpz) {index len : ℕ} (hpos : 1 ≤ len) (hlen : len < 64) :
    extractBits n index len =
      2 ^ (len - 1 - index) * (n.natAbs >>> (index + 1 - len)) % 2 ^ len := by
  apply Nat.eq_of_testBit_eq
  intro i
  have hindex := Nat.div_add_mod index 64
  have him := Nat.mod_lt index (show 0 < 64 by norm_num)
  simp only [extractBits, Nat.testBit_and, Nat.testBit_two_pow_sub_one, Nat.testBit_mod_two_pow,
    Nat.testBit_two_pow_mul, Nat.testBit_shiftRight]
  by_cases hi : i < len
  · by_cases hhigh : len ≤ index % 64 + 1
    · rw [if_pos hhigh, Nat.testBit_shiftRight, testBit_limb]
      have h1 : index % 64 + 1 - len + i < 64 := by omega
      have h2 : len - 1 - index ≤ i := by omega
      have h3 : 64 * (index / 64) + (index % 64 + 1 - len + i) =
          index + 1 - len + (i - (len - 1 - index)) := by omega
      simp [hi, h1, h2, h3]
    · rw [if_neg hhigh]
      simp only [Nat.testBit_or, limbBase, Nat.testBit_mod_two_pow, Nat.testBit_shiftLeft,
        Nat.testBit_shiftRight]
      by_cases hsplit : len - index % 64 - 1 ≤ i
      · have h1 : i < 64 := by omega
        have h2 : len - 1 - index ≤ i := by omega
        have h3 : i - (len - index % 64 - 1) < 64 := by omega
        have h4 : 64 * (index / 64) + (i - (len - index % 64 - 1)) =
            index + 1 - len + (i - (len - 1 - index)) := by omega
        have hlow : (if index + 1 < len then 0 else limb n.natAbs ((index + 1 - len) / 64)).testBit
            (index % 64 + 1 + 64 - len + i) = false := by
          by_cases hshort : index + 1 < len
          · rw [if_pos hshort, Nat.zero_testBit]
          · have h5 : ¬ index % 64 + 1 + 64 - len + i < 64 := by omega
            simp [if_neg hshort, testBit_limb, h5]
        simp [hi, hlow, testBit_limb, hsplit, h1, h2, h3, h4]
      · by_cases hshort : index + 1 < len
        · have h2 : ¬ len - 1 - index ≤ i := by omega
          simp [hshort, hsplit, h2]
        · have h1 : (index + 1 - len) / 64 = index / 64 - 1 := by omega
          have h2 : len - 1 - index ≤ i := by omega
          have h3 : index % 64 + 1 + 64 - len + i < 64 := by omega
          have h4 : 64 * (index / 64 - 1) + (index % 64 + 1 + 64 - len + i) =
              index + 1 - len + (i - (len - 1 - index)) := by omega
          simp [hi, if_neg hshort, testBit_limb, hsplit, h1, h2, h3, h4]
  · simp [hi]

end RfClassGroups.Bicycl
