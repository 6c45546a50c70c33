import Mathlib.Algebra.CharP.Lemmas
import Mathlib.RingTheory.Int.Basic
import RfClassGroups.Lib.Extension
import RfClassGroups.Lib.FormClass

/-! The quadratic order of discriminant `q^2 d` inside the one of discriminant `d`, both odd:
the forms of the extended ideals, and powers modulo a prime divisor of the discriminant. -/

open IdealClass

/-- `D` is the discriminant of the order of conductor `q` in the order of discriminant `d`. -/
structure Suborder (q d D : ℤ) : Prop where
  eq : D = q * q * d
  odd : q % 2 = 1
  residue : d % 4 = 1

namespace Suborder

variable {q d D : ℤ}

theorem D_residue (h : Suborder q d D) : D % 4 = 1 := by
  have hq := h.odd
  have hd := h.residue
  obtain ⟨k, hk⟩ : ∃ k, q = 2 * k + 1 := ⟨q / 2, by omega⟩
  obtain ⟨m, hm⟩ : ∃ m, d = 4 * m + 1 := ⟨d / 4, by omega⟩
  have hD : D = 4 * (q * q * m + k * k + k) + 1 := by
    rw [h.eq, hm, hk]
    ring
  omega

theorem constants (h : Suborder q d D) :
    D % 2 = 1 ∧ d % 2 = 1 ∧ 4 * ((D - D % 2) / 4) = D - 1 ∧ 4 * ((d - d % 2) / 4) = d - 1 := by
  have hD := h.D_residue
  have hd := h.residue
  omega

theorem half (h : Suborder q d D) : 2 * ((1 - q) / 2) = 1 - q := by
  have hq := h.odd
  omega

/-- The smaller order in the larger one. -/
def extend (h : Suborder q d D) : QuadraticOrder D →+* QuadraticOrder d where
  toFun z := ⟨z.re + (1 - q) / 2 * z.im, q * z.im⟩
  map_one' := by
    apply QuadraticAlgebra.ext
    · simp only [QuadraticAlgebra.re_one, QuadraticAlgebra.im_one, mul_zero, add_zero]
    · simp only [QuadraticAlgebra.im_one, mul_zero]
  map_zero' := by
    apply QuadraticAlgebra.ext
    · simp only [QuadraticAlgebra.re_zero, QuadraticAlgebra.im_zero, mul_zero, add_zero]
    · simp only [QuadraticAlgebra.im_zero, mul_zero]
  map_add' x y := by
    apply QuadraticAlgebra.ext
    · simp only [QuadraticAlgebra.re_add, QuadraticAlgebra.im_add]
      ring
    · simp only [QuadraticAlgebra.im_add]
      ring
  map_mul' x y := by
    obtain ⟨hD2, hd2, hD4, hd4⟩ := h.constants
    have he := h.half
    have hq := h.eq
    apply QuadraticAlgebra.ext
    · simp only [QuadraticAlgebra.re_mul, QuadraticAlgebra.im_mul]
      generalize x.re = x0, x.im = x1, y.re = y0, y.im = y1
      rw [hD2] at hD4 ⊢
      rw [hd2] at hd4 ⊢
      apply mul_left_cancel₀ (four_ne_zero (α := ℤ))
      linear_combination x1 * y1 * (hD4 + hq - q * q * hd4 + (1 + q - 2 * ((1 - q) / 2)) * he)
    · simp only [QuadraticAlgebra.im_mul]
      generalize x.re = x0, x.im = x1, y.re = y0, y.im = y1
      rw [hD2, hd2]
      linear_combination -q * x1 * y1 * he

theorem re_extend (h : Suborder q d D) (z : QuadraticOrder D) :
    (h.extend z).re = z.re + (1 - q) / 2 * z.im := rfl

theorem im_extend (h : Suborder q d D) (z : QuadraticOrder D) : (h.extend z).im = q * z.im := rfl

theorem q_ne_zero (h : Suborder q d D) : q ≠ 0 := by
  rintro rfl
  exact absurd h.odd (by decide)

theorem conductor (h : Suborder q d D) : Conductor h.extend (q : QuadraticOrder D) where
  injective := by
    rw [injective_iff_map_eq_zero]
    intro z hz
    have him : q * z.im = 0 := congrArg QuadraticAlgebra.im hz
    have hre : z.re + (1 - q) / 2 * z.im = 0 := congrArg QuadraticAlgebra.re hz
    have him' : z.im = 0 := (mul_eq_zero.mp him).resolve_left h.q_ne_zero
    rw [him', mul_zero, add_zero] at hre
    exact QuadraticAlgebra.ext hre him'
  absorbs s := by
    refine ⟨⟨q * s.re - (1 - q) / 2 * s.im, s.im⟩, ?_⟩
    rw [map_intCast]
    apply QuadraticAlgebra.ext
    · rw [re_extend]
      simp
    · rw [im_extend]
      simp

/-- The root of a form of the smaller order, in terms of that of a form of the larger one. -/
theorem extend_root (h : Suborder q d D) {f g : BinaryForm} (hf : f.disc = d) (hg : g.disc = D)
    {k : ℤ} (hk : g.b = q * f.b + 2 * k) : h.extend (g.root D) = q * f.root d + k := by
  obtain ⟨hD2, hd2, -, -⟩ := h.constants
  have hfb := BinaryForm.b_parity hf
  have hgb := BinaryForm.b_parity hg
  have he := h.half
  apply QuadraticAlgebra.ext
  · rw [re_extend]
    simp only [BinaryForm.root, QuadraticAlgebra.re_add, QuadraticAlgebra.re_mul,
      QuadraticAlgebra.re_intCast, QuadraticAlgebra.im_intCast, Int.cast_id]
    rw [hD2] at hgb ⊢
    rw [hd2] at hfb ⊢
    apply mul_left_cancel₀ (two_ne_zero (α := ℤ))
    linear_combination hgb - q * hfb + he + hk
  · rw [im_extend]
    simp [BinaryForm.root]

theorem map_ideal (h : Suborder q d D) (g : BinaryForm) :
    (g.ideal D).map h.extend = Ideal.span {(g.a : QuadraticOrder d), h.extend (g.root D)} := by
  rw [BinaryForm.ideal, Ideal.map_span, Set.image_pair, map_intCast]

/-- Two forms with one first coefficient, prime to `q`, and second coefficients that differ
by the factor `q` modulo twice the first. -/
theorem map_ideal_eq (h : Suborder q d D) {f g : BinaryForm} (hf : f.disc = d) (hg : g.disc = D)
    (ha : g.a = f.a) (hcop : IsCoprime f.a q) {k : ℤ} (hk : g.b = q * f.b + 2 * (f.a * k)) :
    (g.ideal D).map h.extend = f.ideal d := by
  have hroot := h.extend_root hf hg hk
  push_cast at hroot
  obtain ⟨u, v, huv⟩ := hcop
  have huv' := congrArg (Int.cast : ℤ → QuadraticOrder d) huv
  push_cast at huv'
  rw [h.map_ideal, hroot, ha, BinaryForm.ideal]
  apply le_antisymm
  · rw [Ideal.span_le]
    rintro z hz
    rcases hz with rfl | rfl
    · exact Ideal.subset_span (by simp)
    · exact Ideal.mem_span_pair.mpr ⟨k, q, by ring⟩
  · rw [Ideal.span_le]
    rintro z hz
    rcases hz with rfl | rfl
    · exact Ideal.subset_span (by simp)
    · refine Ideal.mem_span_pair.mpr ⟨u * f.root d - v * k, v, ?_⟩
      linear_combination f.root d * huv'

theorem primeTo_ideal {g : BinaryForm} (hcop : IsCoprime g.a q) :
    PrimeTo (q : QuadraticOrder D) (g.ideal D) :=
  ⟨g.a, Ideal.subset_span (by simp), hcop.map (Int.castRingHom (QuadraticOrder D))⟩

/-- Modulo a prime that divides the discriminant a power to that prime is an integer. -/
theorem exists_frobenius (h : Suborder q d D) (hq : Prime q) (hq0 : 0 < q) (hqd : q ∣ d)
    (α : QuadraticOrder d) : ∃ (n : ℤ) (γ : QuadraticOrder d),
      α ^ q.toNat = ((n * (2 * α.re + α.im)) ^ q.toNat : ℤ) + q * γ := by
  obtain ⟨p, rfl⟩ := Int.eq_ofNat_of_zero_le hq0.le
  have hp : p.Prime := Nat.prime_iff_prime_int.mpr hq
  obtain ⟨-, hd2, -, hd4⟩ := h.constants
  obtain ⟨k, hk⟩ : ∃ k, p = 2 * k + 1 := ⟨p / 2, by have := h.odd; omega⟩
  have hk0 : k ≠ 0 := by
    rintro rfl
    exact hp.ne_one (by omega)
  -- the square root of the discriminant
  obtain ⟨s, hs⟩ : ∃ s : QuadraticOrder d, s = ⟨-1, 2⟩ := ⟨_, rfl⟩
  have hss : s * s = d := by
    rw [hs]
    apply QuadraticAlgebra.ext
    · simp only [QuadraticAlgebra.re_mul, QuadraticAlgebra.re_intCast, Int.cast_id]
      linear_combination hd4
    · simp only [QuadraticAlgebra.im_mul, QuadraticAlgebra.im_intCast]
      linear_combination 4 * hd2
  have htwo : α + α = (2 * α.re + α.im : ℤ) + α.im * s := by
    rw [hs]
    apply QuadraticAlgebra.ext
    · simp only [QuadraticAlgebra.re_add, QuadraticAlgebra.re_mul, QuadraticAlgebra.re_intCast,
        QuadraticAlgebra.im_intCast, Int.cast_id]
      ring
    · simp only [QuadraticAlgebra.im_add, QuadraticAlgebra.im_mul, QuadraticAlgebra.re_intCast,
        QuadraticAlgebra.im_intCast, Int.cast_id]
      ring
  obtain ⟨e, he⟩ := hqd
  have hspow : s ^ p = (p : QuadraticOrder d) * (e * d ^ (k - 1) * s) := by
    obtain ⟨j, rfl⟩ : ∃ j, k = j + 1 := ⟨k - 1, by omega⟩
    have hde : (d : QuadraticOrder d) = p * e := by
      exact_mod_cast congrArg (Int.cast : ℤ → QuadraticOrder d) he
    have hodd : s ^ p = s ^ (2 * (j + 1) + 1) := by rw [← hk]
    rw [hodd, pow_succ, pow_mul, pow_two, hss, Nat.add_sub_cancel, pow_succ]
    linear_combination (d : QuadraticOrder d) ^ j * s * hde
  obtain ⟨r, hr⟩ := exists_add_pow_prime_eq hp ((2 * α.re + α.im : ℤ) : QuadraticOrder d) (α.im * s)
  rw [← htwo, ← two_mul, mul_pow, mul_pow, hspow] at hr
  -- a half of one modulo the prime
  have hhalf : (2 : QuadraticOrder d) * (k + 1) = p + 1 := by
    rw [hk]
    push_cast
    ring
  obtain ⟨t, ht⟩ := sub_dvd_pow_sub_pow ((p : QuadraticOrder d) + 1) 1 p
  rw [← hhalf, mul_pow, one_pow, hhalf, add_sub_cancel_right] at ht
  rw [Int.toNat_natCast]
  refine ⟨k + 1, (k + 1) ^ p * (α.im ^ p * (e * d ^ (k - 1) * s) +
    (2 * α.re + α.im : ℤ) * (α.im * s) * r) - t * α ^ p, ?_⟩
  push_cast at hr ⊢
  rw [mul_pow]
  linear_combination (k + 1 : QuadraticOrder d) ^ p * hr - α ^ p * ht

/-- A generator of the extension of an ideal prime to `q` is prime to `q`. -/
theorem coprime_of_generator (h : Suborder q d D) (hq : Prime q) {I : Ideal (QuadraticOrder D)}
    (hprime : PrimeTo (q : QuadraticOrder D) I) {α γ : QuadraticOrder d} {n : ℤ}
    (hmap : I.map h.extend = Ideal.span {α}) (hα : α = n + q * γ) : IsCoprime n q := by
  rw [isCoprime_comm, hq.coprime_iff_not_dvd]
  rintro ⟨m, rfl⟩
  obtain ⟨a, ha, u, v, huv⟩ := hprime
  have hmem : h.extend a ∈ Ideal.span {α} := hmap ▸ Ideal.mem_map_of_mem _ ha
  obtain ⟨w, hw⟩ := Ideal.mem_span_singleton'.mp hmem
  have hunit : (q : QuadraticOrder d) * (h.extend u * w * (m + γ) + h.extend v) = 1 := by
    have hsum := congrArg h.extend huv
    rw [map_add, map_mul, map_mul, ← hw, hα, map_intCast, map_one] at hsum
    push_cast at hsum
    linear_combination hsum
  have hre := congrArg QuadraticAlgebra.re hunit
  rw [QuadraticAlgebra.re_mul, QuadraticAlgebra.re_intCast, QuadraticAlgebra.im_intCast,
    QuadraticAlgebra.re_one, mul_zero, zero_mul, add_zero] at hre
  exact hq.not_dvd_one ⟨_, hre.symm⟩

theorem map_pow_span (h : Suborder q d D) {I : Ideal (QuadraticOrder D)} {α : QuadraticOrder d}
    (hmap : I.map h.extend = Ideal.span {α}) (n : ℕ) :
    (I ^ n).map h.extend = Ideal.span {α ^ n} := by
  rw [Ideal.map_pow, hmap, Ideal.span_singleton_pow]

section

variable [Fact (D < 0)] [Fact (d < 0)] {f g k : BinaryForm}

/-- The class of the extension of the ideal of a form. -/
noncomputable def extendClass (h : Suborder q d D) (g : BinaryForm) : BinaryForm.FormClass d :=
  of ((g.ideal D).map h.extend)

omit [Fact (D < 0)] in
theorem invertible_map (h : Suborder q d D) (hg : g.Proper D) :
    IdealClass.Invertible ((g.ideal D).map h.extend) := by
  apply Invertible.of_mul
  rw [← Ideal.map_mul, BinaryForm.ideal_mul_mirror hg.disc hg.primitive, map_span_singleton,
    map_intCast]
  exact invertible_span (by exact_mod_cast hg.pos.ne')

theorem extendClass_eq (h : Suborder q d D) (hf : f.Proper D) (hg : g.Proper D)
    (hclass : BinaryForm.classOf D f = BinaryForm.classOf D g) :
    h.extendClass f = h.extendClass g :=
  of_map_eq h.conductor.injective hf.invertible hg.invertible (h.invertible_map hf)
    (h.invertible_map hg) hclass

theorem extendClass_mul (h : Suborder q d D) (hf : f.Proper D) (hg : g.Proper D) (hk : k.Proper D)
    (hclass : BinaryForm.classOf D k = BinaryForm.classOf D f * BinaryForm.classOf D g) :
    h.extendClass k = h.extendClass f * h.extendClass g := by
  have hmul := (h.invertible_map hf).mul (h.invertible_map hg)
  rw [extendClass, extendClass, extendClass, ← of_mul (h.invertible_map hf) (h.invertible_map hg),
    ← Ideal.map_mul]
  apply of_map_eq h.conductor.injective hk.invertible (hf.invertible.mul hg.invertible)
    (h.invertible_map hk)
  · rwa [Ideal.map_mul]
  · rw [of_mul hf.invertible hg.invertible]
    exact hclass

end

end Suborder
