import Mathlib.NumberTheory.LegendreSymbol.JacobiSymbol
import RfClassGroups.Lib.Composition

/-! The genus character of a form at an odd prime that divides the discriminant: the
Legendre symbol of any value that the prime does not divide. -/

namespace BinaryForm

variable {D : ℤ} {r : ℕ}

theorem four_mul_eval (f : BinaryForm) (x y z w : ℤ) :
    4 * (f.eval x y * f.eval z w) =
      (2 * f.a * (x * z) + f.b * (x * w + y * z) + 2 * f.c * (y * w)) ^ 2 -
        f.disc * (x * w - y * z) ^ 2 := by
  simp only [eval, disc]
  ring

/-- The symbol of the first of the values `f(1, 0)`, `f(0, 1)` and `f(1, 1)` that `r` does not
divide. -/
def genusCharacter (f : BinaryForm) (r : ℕ) : ℤ :=
  let chi := jacobiSym f.a r
  let chi := if chi = 0 then jacobiSym f.c r else chi
  if chi = 0 then jacobiSym (f.a + f.b + f.c) r else chi

variable [Fact r.Prime]

theorem jacobiSym_eq_zero {a : ℤ} : jacobiSym a r = 0 ↔ (r : ℤ) ∣ a := by
  rw [← jacobiSym.legendreSym.to_jacobiSym, legendreSym.eq_zero_iff,
    ZMod.intCast_zmod_eq_zero_iff_dvd]

/-- The character is the symbol of some value. -/
theorem exists_value {f : BinaryForm} (hf : f.content = 1) : ∃ x y,
    ¬ (r : ℤ) ∣ f.eval x y ∧ f.genusCharacter r = legendreSym r (f.eval x y) := by
  have hprime : Prime (r : ℤ) := Nat.prime_iff_prime_int.mp Fact.out
  rw [genusCharacter]
  by_cases ha : (r : ℤ) ∣ f.a
  · have ha0 : jacobiSym f.a r = 0 := jacobiSym_eq_zero.mpr ha
    by_cases hc : (r : ℤ) ∣ f.c
    · have hc0 : jacobiSym f.c r = 0 := jacobiSym_eq_zero.mpr hc
      refine ⟨1, 1, ?_, ?_⟩
      · intro hdvd
        have hb : (r : ℤ) ∣ f.b := by
          have hsum : f.b = f.eval 1 1 - f.a - f.c := by
            simp only [eval]
            ring
          rw [hsum]
          exact dvd_sub (dvd_sub hdvd ha) hc
        have hcontent := (f.dvd_content_iff r).mpr ⟨ha, hb, hc⟩
        rw [hf] at hcontent
        exact (Fact.out : r.Prime).not_dvd_one hcontent
      · simp only [ha0, hc0, if_true]
        rw [← jacobiSym.legendreSym.to_jacobiSym]
        simp [eval]
    · have hc0 : jacobiSym f.c r ≠ 0 := mt jacobiSym_eq_zero.mp hc
      refine ⟨0, 1, by simpa [eval] using hc, ?_⟩
      simp only [ha0, if_true, if_neg hc0]
      rw [← jacobiSym.legendreSym.to_jacobiSym]
      simp [eval]
  · have ha0 : jacobiSym f.a r ≠ 0 := mt jacobiSym_eq_zero.mp ha
    refine ⟨1, 0, by simpa [eval] using ha, ?_⟩
    simp only [if_neg ha0]
    rw [← jacobiSym.legendreSym.to_jacobiSym]
    simp [eval]

/-- The symbols of two values agree. -/
theorem legendreSym_eval_eq (hr : r ≠ 2) {f : BinaryForm} (hf : f.disc = D) (hrD : (r : ℤ) ∣ D)
    {x y z w : ℤ} (hxy : ¬ (r : ℤ) ∣ f.eval x y) (hzw : ¬ (r : ℤ) ∣ f.eval z w) :
    legendreSym r (f.eval x y) = legendreSym r (f.eval z w) := by
  have hprime : Prime (r : ℤ) := Nat.prime_iff_prime_int.mp Fact.out
  have hfour := f.four_mul_eval x y z w
  generalize 2 * f.a * (x * z) + f.b * (x * w + y * z) + 2 * f.c * (y * w) = B at hfour
  have h2 : ¬ (r : ℤ) ∣ 2 := by
    intro h
    exact hr ((Nat.prime_dvd_prime_iff_eq Fact.out Nat.prime_two).mp (by exact_mod_cast h))
  have hdisc : ((f.disc : ℤ) : ZMod r) = 0 := by
    rw [hf]
    exact (ZMod.intCast_zmod_eq_zero_iff_dvd D r).mpr hrD
  have hsquare : ((2 * 2 * (f.eval x y * f.eval z w) : ℤ) : ZMod r) = ((B * B : ℤ) : ZMod r) := by
    have hcast := congrArg (Int.cast : ℤ → ZMod r) hfour
    push_cast at hcast ⊢
    linear_combination hcast - ((x : ZMod r) * w - y * z) ^ 2 * hdisc
  have hB : (B : ZMod r) ≠ 0 := by
    intro h0
    have hdvd : (r : ℤ) ∣ 2 * 2 * (f.eval x y * f.eval z w) := by
      apply (ZMod.intCast_zmod_eq_zero_iff_dvd _ r).mp
      rw [hsquare, Int.cast_mul, h0, mul_zero]
    rcases hprime.dvd_or_dvd hdvd with h | h
    · rcases hprime.dvd_or_dvd h with h | h <;> exact h2 h
    · rcases hprime.dvd_or_dvd h with h | h
      · exact hxy h
      · exact hzw h
  have hprod : legendreSym r (f.eval x y) * legendreSym r (f.eval z w) = 1 := by
    have h22 : ((2 : ℤ) : ZMod r) ≠ 0 := mt (ZMod.intCast_zmod_eq_zero_iff_dvd 2 r).mp h2
    have hsym : legendreSym r (2 * 2 * (f.eval x y * f.eval z w)) = legendreSym r (B * B) := by
      rw [legendreSym, hsquare]
      rfl
    rw [legendreSym.mul, legendreSym.mul, legendreSym.mul, legendreSym.mul, ← pow_two,
      legendreSym.sq_one r h22, one_mul, ← pow_two (legendreSym r B), legendreSym.sq_one r hB] at hsym
    exact hsym
  have hxy1 := legendreSym.eq_one_or_neg_one r (mt (ZMod.intCast_zmod_eq_zero_iff_dvd _ r).mp hxy)
  rcases hxy1 with h | h
  · rw [h, one_mul] at hprod
    rw [h, hprod]
  · rw [h] at hprod
    rw [h]
    linarith

theorem genusCharacter_eq (hr : r ≠ 2) {f : BinaryForm} (hf : f.Proper D) (hrD : (r : ℤ) ∣ D)
    {x y : ℤ} (hxy : ¬ (r : ℤ) ∣ f.eval x y) :
    f.genusCharacter r = legendreSym r (f.eval x y) := by
  obtain ⟨z, w, hzw, hchi⟩ := exists_value (r := r) hf.primitive
  rw [hchi]
  exact legendreSym_eval_eq hr hf.disc hrD hzw hxy

/-- The character is one of the class. -/
theorem genusCharacter_equivalent [Fact (D < 0)] (hr : r ≠ 2) {f g : BinaryForm}
    (hf : f.Proper D) (hrD : (r : ℤ) ∣ D) (h : Equivalent f g) :
    g.genusCharacter r = f.genusCharacter r := by
  obtain ⟨x, y, hxy, hchi⟩ := exists_value (r := r) (hf.of_equivalent h).primitive
  obtain ⟨p, q, s, t, -, rfl⟩ := h
  rw [hchi, eval_subst]
  rw [eval_subst] at hxy
  exact (genusCharacter_eq hr hf hrD hxy).symm

/-- Composition multiplies the characters, as it multiplies values. -/
theorem genusCharacter_form [Fact (D < 0)] (hr : r ≠ 2) {M : CompositionMatrix}
    (hl : M.left.Proper D) (hrt : M.right.Proper D) (hrD : (r : ℤ) ∣ D) :
    M.form.genusCharacter r = M.left.genusCharacter r * M.right.genusCharacter r := by
  obtain ⟨x, y, hxy, hchi⟩ := exists_value (r := r) hl.primitive
  obtain ⟨z, w, hzw, hchi'⟩ := exists_value (r := r) hrt.primitive
  have hprime : Prime (r : ℤ) := Nat.prime_iff_prime_int.mp Fact.out
  have hmul := M.eval_mul_eval x y z w
  have hvalue : ¬ (r : ℤ) ∣ M.left.eval x y * M.right.eval z w := by
    intro hdvd
    rcases hprime.dvd_or_dvd hdvd with h | h
    · exact hxy h
    · exact hzw h
  rw [hmul] at hvalue
  rw [genusCharacter_eq hr (CompositionMatrix.proper_form hl hrt) hrD hvalue, hchi, hchi', ← hmul,
    legendreSym.mul]

end BinaryForm
