import RfClassGroups.Lib.CoeffList
import RfClassGroups.Lib.ExceptList
import Mathlib.Algebra.Field.ZMod
import Mathlib.Data.Int.GCD

/-! The big-integer operations the polynomial code uses. `Mpz::mod` is the
remainder of `Int`, which is nonnegative for a positive modulus. -/

namespace RfClassGroups

open CoeffList ExceptList

abbrev Mpz := ℤ

/-- `mpz_invert`: the inverse in `[0, m)`, or the exception of the wrapper. -/
def modInverse (a m : Mpz) : Except String Mpz :=
  if Int.gcd a m = 1 then return Int.gcdA a m % m else throw "not invertible"

def powModNat (b : Mpz) (e : ℕ) (m : Mpz) : Mpz :=
  if e = 0 then 1 % m
  else
    let h := powModNat (b * b % m) (e / 2) m
    if e % 2 = 1 then b * h % m else h

def powMod (b e m : Mpz) : Mpz := powModNat b e.toNat m

theorem modInverse_eq_ok {a m inv : Mpz} (h : modInverse a m = .ok inv) :
    Int.gcd a m = 1 ∧ inv = Int.gcdA a m % m := by
  unfold modInverse at h
  split at h
  · next hg => exact ⟨hg, by simpa [eq_comm] using h⟩
  · simp at h

theorem modInverse_error {a m : Mpz} (h : Int.gcd a m ≠ 1) : ∃ e, modInverse a m = .error e :=
  ⟨_, if_neg h⟩

theorem modInverse_mul {n : ℕ} {a inv : Mpz} (h : modInverse a n = .ok inv) :
    (a : ZMod n) * inv = 1 := by
  obtain ⟨hg, rfl⟩ := modInverse_eq_ok h
  have hb := Int.gcd_eq_gcd_ab a n
  rw [hg] at hb
  have hh := congrArg (Int.cast : ℤ → ZMod n) hb
  simpa using hh.symm

theorem modInverse_zero_error {q : ℕ} (hq : 1 < q) {a : Mpz} (h : (a : ZMod q) = 0) :
    ∃ e, modInverse a q = .error e := by
  refine modInverse_error ?_
  have hd : (q : ℤ) ∣ a := (ZMod.intCast_zmod_eq_zero_iff_dvd a q).mp h
  rw [Int.gcd_eq_natAbs, Int.natAbs_natCast, Nat.gcd_eq_right (Int.natCast_dvd.mp hd)]
  omega

theorem modInverse_exists {q : ℕ} (hq : q.Prime) {a : Mpz} (h : (a : ZMod q) ≠ 0) :
    ∃ inv, modInverse a q = .ok inv := by
  have hd : ¬ (q : ℤ) ∣ a := fun hd => h ((ZMod.intCast_zmod_eq_zero_iff_dvd a q).mpr hd)
  have hg : Int.gcd a q = 1 := by
    rw [Int.gcd_eq_natAbs, Int.natAbs_natCast, Nat.gcd_comm]
    exact (Nat.Prime.coprime_iff_not_dvd hq).mpr (fun hh => hd (Int.natCast_dvd.mpr hh))
  exact ⟨_, if_pos hg⟩

theorem modInverse_cast {q : ℕ} [Fact q.Prime] {a inv : Mpz} (h : modInverse a q = .ok inv) :
    (inv : ZMod q) = (a : ZMod q)⁻¹ :=
  eq_inv_of_mul_eq_one_right (modInverse_mul h)

theorem powModNat_cast {R : Type*} [CommRing R] {m : Mpz} (hm : (m : R) = 0) (b : Mpz) (e : ℕ) :
    ((powModNat b e m : ℤ) : R) = (b : R) ^ e := by
  induction e using Nat.strong_induction_on generalizing b with
  | _ e ih =>
    rw [powModNat]
    by_cases he : e = 0
    · rw [if_pos he, cast_emod hm, he, pow_zero, Int.cast_one]
    · have hh := ih (e / 2) (by omega) (b * b % m)
      rw [cast_emod hm, Int.cast_mul, ← pow_two (b : R), ← pow_mul] at hh
      rw [if_neg he]
      rcases Nat.mod_two_eq_zero_or_one e with h2 | h2
      · rw [if_neg (by omega), hh]
        congr 1
        omega
      · rw [if_pos h2, cast_emod hm, Int.cast_mul, hh, ← pow_succ']
        congr 1
        omega

theorem powMod_cast {R : Type*} [CommRing R] {m : Mpz} (hm : (m : R) = 0) (b e : Mpz) :
    ((powMod b e m : ℤ) : R) = (b : R) ^ e.toNat :=
  powModNat_cast hm b e.toNat

theorem powModNat_range {m : Mpz} (hm : 0 < m) (b : Mpz) (e : ℕ) :
    0 ≤ powModNat b e m ∧ powModNat b e m < m := by
  induction e using Nat.strong_induction_on generalizing b with
  | _ e ih =>
    rw [powModNat]
    by_cases he : e = 0
    · rw [if_pos he]; exact emod_range hm 1
    · rw [if_neg he]
      by_cases h2 : e % 2 = 1
      · rw [if_pos h2]; exact emod_range hm _
      · rw [if_neg h2]; exact ih (e / 2) (by omega) _

end RfClassGroups
