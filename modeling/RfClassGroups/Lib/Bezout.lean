import Mathlib.Algebra.Polynomial.FieldDivision
import Mathlib.Algebra.Polynomial.RingDivision

/-! Combinations of two coprime monic polynomials with bounded coefficients. -/

open Polynomial

namespace Bezout

variable {F : Type*} [Field F]

/-- Every polynomial below the degree bound is a combination of two coprime
monic polynomials whose coefficients keep their own bounds. -/
theorem exists_combination {a b h : F[X]} {k : ℕ} (hb : b.Monic) (ha : a.Monic)
    (hab : IsCoprime a b) (hh : h.degree < (a.natDegree + b.natDegree + k + 1 : ℕ)) :
    ∃ r r' : F[X], r.degree < (a.natDegree + k + 1 : ℕ) ∧
      r'.degree < (b.natDegree + k + 1 : ℕ) ∧ a * r' + b * r = h := by
  obtain ⟨u, v, huv⟩ := hab
  have hdiv := modByMonic_add_div (h * u) b
  have hr' : ((h * u) %ₘ b).degree < (b.natDegree + k + 1 : ℕ) := by
    refine (degree_modByMonic_lt _ hb).trans_le (degree_le_natDegree.trans ?_)
    exact_mod_cast (by omega : b.natDegree ≤ b.natDegree + k + 1)
  have hcomb : a * ((h * u) %ₘ b) + b * (h * v + (h * u) /ₘ b * a) = h := by
    calc a * ((h * u) %ₘ b) + b * (h * v + (h * u) /ₘ b * a)
        = a * ((h * u) %ₘ b + b * ((h * u) /ₘ b)) + h * (v * b) := by ring
      _ = h * (u * a + v * b) := by rw [hdiv]; ring
      _ = h := by rw [huv, mul_one]
  refine ⟨h * v + (h * u) /ₘ b * a, (h * u) %ₘ b, ?_, hr', hcomb⟩
  -- the second coefficient is bounded because its product with `b` is
  generalize h * v + (h * u) /ₘ b * a = r at hcomb ⊢
  have hbr : b * r = h - a * ((h * u) %ₘ b) := eq_sub_of_add_eq' hcomb
  have hbdeg : (b * r).degree < (a.natDegree + b.natDegree + k + 1 : ℕ) := by
    rw [hbr]
    refine (degree_sub_le _ _).trans_lt (max_lt hh ?_)
    rw [degree_mul, degree_eq_natDegree ha.ne_zero]
    refine (WithBot.add_lt_add_left (WithBot.natCast_ne_bot _) hr').trans_le ?_
    exact_mod_cast (by omega : a.natDegree + (b.natDegree + k + 1) ≤
      a.natDegree + b.natDegree + k + 1)
  by_cases hr0 : r = 0
  · rw [hr0, degree_zero]
    exact WithBot.bot_lt_coe _
  rw [degree_mul, degree_eq_natDegree hb.ne_zero, degree_eq_natDegree hr0] at hbdeg
  rw [degree_eq_natDegree hr0]
  have hnat : b.natDegree + r.natDegree < a.natDegree + b.natDegree + k + 1 := by
    exact_mod_cast hbdeg
  exact_mod_cast (by omega : r.natDegree < a.natDegree + k + 1)

end Bezout
