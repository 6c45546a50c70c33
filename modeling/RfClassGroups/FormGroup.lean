import Mathlib.Data.Finite.Prod
import Mathlib.Data.Int.Interval
import RfClassGroups.NupowPrecomp

/-! The reduced forms of a discriminant are a commutative group, with NUCOMP as its product
and the windowed exponentiation as its powers. -/

open BinaryForm

namespace RfClassGroups.Bicycl

/-- The forms that a class group computes with, with the `partial_euclid` it uses. -/
def Forms (cl : ClassGroup) (_ : Euclid) : Type := cl.Elt

namespace Forms

variable {cl : ClassGroup} {E : Euclid}

def of (E : Euclid) (x : cl.Elt) : Forms cl E := x

def form (x : Forms cl E) : QFI := ClassGroup.Elt.form x

theorem proper (x : Forms cl E) : x.form.Proper cl.discriminant := ClassGroup.Elt.proper x

theorem reduced (x : Forms cl E) : x.form.Reduced := ClassGroup.Elt.reduced x

theorem ext_form {x y : Forms cl E} (h : x.form = y.form) : x = y := ClassGroup.Elt.ext_form h

noncomputable def toClass (x : Forms cl E) : BinaryForm.FormClass cl.discriminant :=
  ClassGroup.Elt.toClass x

instance : One (Forms cl E) := ⟨cl.oneElt⟩

instance : Mul (Forms cl E) := ⟨fun x y => ClassGroup.nucompElt E x y false⟩

instance : Div (Forms cl E) := ⟨fun x y => ClassGroup.nucompElt E x y true⟩

instance : Inv (Forms cl E) := ⟨ClassGroup.Elt.neg⟩

/-- The power that the exponentiation returns. An exponent with more bits than its index can
count has the power that the product gives. -/
def power (x : Forms cl E) (n : Mpz) : Forms cl E :=
  if FitsInt n then (nupow (cl.ops E) x n).getD cl.oneElt else zpowRec npowRec n x

theorem toClass_injective : Function.Injective (@toClass cl E) := ClassGroup.Elt.toClass_injective

@[simp] theorem toClass_one : (1 : Forms cl E).toClass = 1 := ClassGroup.toClass_one cl

@[simp] theorem toClass_mul (x y : Forms cl E) : (x * y).toClass = x.toClass * y.toClass :=
  ClassGroup.toClass_nucomp E x y false

@[simp] theorem toClass_div (x y : Forms cl E) : (x / y).toClass = x.toClass / y.toClass :=
  (ClassGroup.toClass_nucomp E x y true).trans (div_eq_mul_inv _ _).symm

@[simp] theorem toClass_inv (x : Forms cl E) : x⁻¹.toClass = x.toClass⁻¹ := ClassGroup.toClass_neg x

theorem power_of_fits (x : Forms cl E) {n : ℤ} (hfits : FitsInt n) :
    power x n = (nupow (cl.ops E) x n).getD cl.oneElt := if_pos hfits

theorem toClass_npowRec (x : Forms cl E) (n : ℕ) : (npowRec n x).toClass = x.toClass ^ n := by
  induction n with
  | zero => rw [npowRec, toClass_one, pow_zero]
  | succ n ih => rw [npowRec, toClass_mul, ih, pow_succ]

@[simp] theorem toClass_power (x : Forms cl E) (n : ℤ) : (power x n).toClass = x.toClass ^ n := by
  by_cases hfits : FitsInt n
  · obtain ⟨r, hr, hcls⟩ := nupow_spec (cl.ops_lawful E) x hfits
    rw [power_of_fits x hfits, hr, Option.getD_some]
    exact hcls
  · have hpower : power x n = zpowRec npowRec n x := if_neg hfits
    rw [hpower]
    cases n with
    | ofNat n => rw [zpowRec, toClass_npowRec, Int.ofNat_eq_natCast, zpow_natCast]
    | negSucc n => rw [zpowRec, toClass_inv, toClass_npowRec, zpow_negSucc]

theorem power_zero (x : Forms cl E) : power x 0 = 1 := by
  apply toClass_injective
  rw [toClass_power, toClass_one, zpow_zero]

theorem power_add_one (x : Forms cl E) (n : ℤ) : power x (n + 1) = power x n * x := by
  apply toClass_injective
  rw [toClass_power, toClass_mul, toClass_power, zpow_add_one]

theorem power_neg (x : Forms cl E) (n : ℤ) : power x (-n) = (power x n)⁻¹ := by
  apply toClass_injective
  rw [toClass_power, toClass_inv, toClass_power, zpow_neg]

/-- The reduced forms are a group, with the computed powers as its powers. -/
instance : CommGroup (Forms cl E) where
  mul_assoc x y z := toClass_injective (by simp only [toClass_mul, mul_assoc])
  one_mul x := toClass_injective (by simp only [toClass_mul, toClass_one, one_mul])
  mul_one x := toClass_injective (by simp only [toClass_mul, toClass_one, mul_one])
  npow n x := power x n
  npow_zero x := power_zero x
  npow_succ n x := power_add_one x n
  div_eq_mul_inv x y := toClass_injective (by
    rw [toClass_div, toClass_mul, toClass_inv, div_eq_mul_inv])
  zpow n x := power x n
  zpow_zero' x := power_zero x
  zpow_succ' n x := power_add_one x n
  zpow_neg' n x := power_neg x (n + 1 : ℕ)
  inv_mul_cancel x := toClass_injective (by
    rw [toClass_mul, toClass_inv, toClass_one, inv_mul_cancel])
  mul_comm x y := toClass_injective (by simp only [toClass_mul, mul_comm])

/-- A power is what the exponentiation returns. -/
theorem nupow_eq (x : Forms cl E) {n : ℤ} (hfits : FitsInt n) :
    nupow (cl.ops E) x n = some (x ^ n) := by
  obtain ⟨r, hr, -⟩ := nupow_spec (cl.ops_lawful E) x hfits
  have hpower : x ^ n = power x n := rfl
  rw [hpower, power_of_fits x hfits, hr, Option.getD_some]
  rfl

theorem toClass_zpow (x : Forms cl E) (n : ℤ) : (x ^ n).toClass = x.toClass ^ n :=
  toClass_power x n

/-- The first two coefficients of a reduced form are bounded by the discriminant. -/
theorem coefficients_le (x : Forms cl E) :
    (0 ≤ x.form.a ∧ x.form.a ≤ -cl.discriminant) ∧
      cl.discriminant ≤ x.form.b ∧ x.form.b ≤ -cl.discriminant := by
  obtain ⟨hlow, hhigh, hle, -⟩ := x.reduced
  have hpos := x.proper.pos
  have hdisc := x.proper.disc
  rw [disc] at hdisc
  have hb : x.form.b * x.form.b ≤ x.form.a * x.form.a := by nlinarith
  have hac : x.form.a * x.form.a ≤ x.form.a * x.form.c := mul_le_mul_of_nonneg_left hle hpos.le
  have ha : x.form.a ≤ -cl.discriminant := by nlinarith
  exact ⟨⟨hpos.le, ha⟩, ⟨by linarith, by linarith⟩⟩

/-- There are finitely many reduced forms. -/
theorem finite (cl : ClassGroup) (E : Euclid) : Finite (Forms cl E) := by
  let coefficients : Forms cl E → Set.Icc 0 (-cl.discriminant) ×
      Set.Icc cl.discriminant (-cl.discriminant) := fun x =>
    (⟨x.form.a, x.coefficients_le.1⟩, ⟨x.form.b, x.coefficients_le.2⟩)
  apply Finite.of_injective coefficients
  intro x y h
  have ha : x.form.a = y.form.a := congrArg (fun p => p.1.1) h
  have hb : x.form.b = y.form.b := congrArg (fun p => p.2.1) h
  apply ext_form
  exact Reduced.ext_of_a_b y.proper.pos ha hb (x.proper.disc.trans y.proper.disc.symm)

end Forms

end RfClassGroups.Bicycl
