import RfClassGroups.Mpz
import RfClassGroups.Lib.Loops
import RfClassGroups.Lib.MaskedHorner

/-! Horner evaluation modulo `q` of a coefficient list, constant term first, and
its value. -/

open CoeffList Loops MaskedHorner

namespace RfClassGroups

def addMod (a b q : Mpz) : Mpz := (a + b) % q

def subMod (a b q : Mpz) : Mpz := (a - b) % q

def mulMod (a b q : Mpz) : Mpz := a * b % q

def evalPolyHorner (coeffs : List Mpz) (alpha q : Mpz) : Mpz :=
  if coeffs = [] then 0
  else (List.range (coeffs.length - 1)).foldl
    (fun acc k => (acc * alpha + coeffs.getD (coeffs.length - 2 - k) 0) % q)
    (coeffs.getLastD 0 % q)

variable {n d : ℕ} {coeffs : List Mpz}

theorem cast_emod_self (a : Mpz) : ((a % (n : Mpz) : ℤ) : ZMod n) = a :=
  cast_emod (by simp) a

theorem cast_addMod (a b : Mpz) : ((addMod a b n : ℤ) : ZMod n) = a + b := by
  rw [addMod, cast_emod_self, Int.cast_add]

theorem cast_subMod (a b : Mpz) : ((subMod a b n : ℤ) : ZMod n) = a - b := by
  rw [subMod, cast_emod_self, Int.cast_sub]

theorem cast_mulMod (a b : Mpz) : ((mulMod a b n : ℤ) : ZMod n) = a * b := by
  rw [mulMod, cast_emod_self, Int.cast_mul]

def fromTop (n : ℕ) (coeffs : List Mpz) (d k : ℕ) : ZMod n := entry (ZMod n) coeffs (d - k)

theorem evalPolyHorner_spec (hn : 0 < n) (hc : coeffs.length = d + 1) (alpha : Mpz) :
    (0 ≤ evalPolyHorner coeffs alpha n ∧ evalPolyHorner coeffs alpha n < n) ∧
      ((evalPolyHorner coeffs alpha n : ℤ) : ZMod n) =
        horner (fromTop n coeffs d) (alpha : ZMod n) d := by
  have hne : coeffs ≠ [] := List.ne_nil_of_length_pos (by omega)
  have hn' : (0 : Mpz) < n := by exact_mod_cast hn
  have hlast : coeffs.getLastD 0 = coeffs.getD d 0 := by
    rw [List.getLastD_eq_getLast?, List.getLast?_eq_getElem?, hc]
    rfl
  have hfold := foldl_range_inv
    (fun k (acc : Mpz) => (0 ≤ acc ∧ acc < n) ∧
      (acc : ZMod n) = horner (fromTop n coeffs d) (alpha : ZMod n) k)
    (fun acc k => (acc * alpha + coeffs.getD (coeffs.length - 2 - k) 0) % (n : Mpz))
    (coeffs.getLastD 0 % n) d
    ⟨emod_range hn' _, by rw [cast_emod_self, hlast]; rfl⟩ fun k acc _ hacc =>
      ⟨emod_range hn' _, ?_⟩
  · rw [evalPolyHorner, if_neg hne, show coeffs.length - 1 = d by omega]
    exact hfold
  · rw [cast_emod_self, Int.cast_add, Int.cast_mul, hacc.2, horner, hc,
      show d + 1 - 2 - k = d - (k + 1) by omega]
    rfl

theorem horner_fromTop (coeffs : List Mpz) (d : ℕ) (alpha : Mpz) :
    horner (fromTop n coeffs d) (alpha : ZMod n) d =
      ((∑ j ∈ Finset.range (d + 1), coeffs.getD j 0 * alpha ^ j : ℤ) : ZMod n) := by
  rw [horner_eq_sum, Int.cast_sum]
  refine Finset.sum_congr rfl fun j hj => ?_
  have hj' := Finset.mem_range.mp hj
  rw [fromTop, show d - (d - j) = j by omega, Int.cast_mul, Int.cast_pow]
  rfl

/-- The evaluation is the value of the polynomial over the integers, reduced. -/
theorem evalPolyHorner_eq {q : Mpz} (hq : 0 < q) (hc : coeffs.length = d + 1) (alpha : Mpz) :
    evalPolyHorner coeffs alpha q =
      (∑ j ∈ Finset.range (d + 1), coeffs.getD j 0 * alpha ^ j) % q := by
  obtain ⟨n, rfl⟩ := Int.eq_ofNat_of_zero_le hq.le
  obtain ⟨hrange, hcast⟩ := evalPolyHorner_spec (Int.natCast_pos.mp hq) hc alpha
  refine eq_of_cast_eq hrange (emod_range hq _) (hcast.trans ?_)
  rw [cast_emod_self, horner_fromTop]

end RfClassGroups
