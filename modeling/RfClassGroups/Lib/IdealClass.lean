import Mathlib.RingTheory.ClassGroup.Basic

/-! The class of an invertible ideal of a domain, which need not be a Dedekind domain. -/

namespace IdealClass

open FractionalIdeal nonZeroDivisors

variable {R : Type*} [CommRing R]

def Invertible (I : Ideal R) : Prop := IsUnit (I : FractionalIdeal R⁰ (FractionRing R))

theorem Invertible.mul {I J : Ideal R} (hI : Invertible I) (hJ : Invertible J) :
    Invertible (I * J) := by
  unfold Invertible
  rw [coeIdeal_mul]
  exact IsUnit.mul hI hJ

theorem Invertible.of_mul {I J : Ideal R} (h : Invertible (I * J)) : Invertible I := by
  unfold Invertible at h
  rw [coeIdeal_mul] at h
  exact isUnit_of_mul_isUnit_left h

variable [IsDomain R]

open Classical in
/-- An ideal without an inverse has the class of the ring, which no result uses. -/
noncomputable def of (I : Ideal R) : ClassGroup R :=
  if h : Invertible I then ClassGroup.mk (FractionRing R) h.unit else 1

theorem of_eq {I : Ideal R} (h : Invertible I) : of I = ClassGroup.mk (FractionRing R) h.unit :=
  dif_pos h

theorem invertible_span {x : R} (hx : x ≠ 0) : Invertible (Ideal.span {x}) := by
  have hk : algebraMap R (FractionRing R) x ≠ 0 := by
    rwa [ne_eq, IsFractionRing.to_map_eq_zero_iff]
  unfold Invertible
  rw [coeIdeal_span_singleton]
  exact ⟨toPrincipalIdeal R (FractionRing R) (Units.mk0 _ hk), by simp⟩

theorem of_mul {I J : Ideal R} (hI : Invertible I) (hJ : Invertible J) :
    of (I * J) = of I * of J := by
  rw [of_eq hI, of_eq hJ, of_eq (hI.mul hJ), ← map_mul]
  congr 1
  apply Units.ext
  calc ((hI.mul hJ).unit : FractionalIdeal R⁰ (FractionRing R))
      = ((I * J : Ideal R) : FractionalIdeal R⁰ (FractionRing R)) := (hI.mul hJ).unit_spec
    _ = I * J := coeIdeal_mul I J
    _ = hI.unit * hJ.unit := (congrArg₂ (· * ·) hI.unit_spec hJ.unit_spec).symm

theorem of_eq_iff {I J : Ideal R} (hI : Invertible I) (hJ : Invertible J) :
    of I = of J ↔ ∃ x y : R, x ≠ 0 ∧ y ≠ 0 ∧ Ideal.span {x} * I = Ideal.span {y} * J := by
  rw [of_eq hI, of_eq hJ, ClassGroup.mk_eq_mk_of_coe_ideal hI.unit_spec hJ.unit_spec]

theorem of_span {x : R} (hx : x ≠ 0) : of (Ideal.span {x}) = 1 := by
  rw [of_eq (invertible_span hx)]
  exact (ClassGroup.mk_eq_one_of_coe_ideal (invertible_span hx).unit_spec).mpr ⟨x, hx, rfl⟩

end IdealClass
