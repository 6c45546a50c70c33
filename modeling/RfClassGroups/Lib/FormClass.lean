import Mathlib.Algebra.QuadraticAlgebra.Basic
import RfClassGroups.Lib.BinaryForm
import RfClassGroups.Lib.IdealClass

/-! The class of a primitive positive definite form of discriminant `D` in the class
group of the quadratic order of discriminant `D`: properly equivalent forms are the
forms of one class, and a composition matrix multiplies classes. -/

/-- The quadratic order of discriminant `D`, for `D` congruent to 0 or 1 modulo 4. -/
abbrev QuadraticOrder (D : ℤ) := QuadraticAlgebra ℤ ((D - D % 2) / 4) (D % 2)

namespace QuadraticOrder

variable {D : ℤ}

theorem norm_pos [hD : Fact (D < 0)] {z : QuadraticOrder D} (hz : z ≠ 0) :
    0 < QuadraticAlgebra.norm z := by
  have hneg : D % 2 * (D % 2) + 4 * ((D - D % 2) / 4) < 0 := by
    have hlt := hD.out
    rcases Int.emod_two_eq_zero_or_one D with h | h
    · rw [h]
      omega
    · rw [h]
      omega
  have hsquare : 4 * QuadraticAlgebra.norm z = (2 * z.re + D % 2 * z.im) ^ 2 +
      -(D % 2 * (D % 2) + 4 * ((D - D % 2) / 4)) * (z.im * z.im) := by
    rw [QuadraticAlgebra.norm_def]
    ring
  by_cases him : z.im = 0
  · have hre : z.re ≠ 0 := fun hre => hz (QuadraticAlgebra.ext hre him)
    have hpos := mul_self_pos.mpr hre
    rw [him] at hsquare
    nlinarith
  · have hpos := mul_pos (neg_pos.mpr hneg) (mul_self_pos.mpr him)
    have hsq := sq_nonneg (2 * z.re + D % 2 * z.im)
    linarith

instance [Fact (D < 0)] : NoZeroDivisors (QuadraticOrder D) where
  eq_zero_or_eq_zero_of_mul_eq_zero {x y} h := by
    by_contra hne
    obtain ⟨hx, hy⟩ := not_or.mp hne
    have hpos := mul_pos (norm_pos hx) (norm_pos hy)
    rw [← map_mul, h, QuadraticAlgebra.norm_zero] at hpos
    exact lt_irrefl 0 hpos

instance [Fact (D < 0)] : IsDomain (QuadraticOrder D) := NoZeroDivisors.to_isDomain _

end QuadraticOrder

namespace BinaryForm

/-- A primitive positive form of discriminant `D`. -/
structure Proper (D : ℤ) (f : BinaryForm) : Prop where
  pos : 0 < f.a
  disc : f.disc = D
  primitive : f.content = 1

/-- The root `(b + √D) / 2`. -/
def root (D : ℤ) (f : BinaryForm) : QuadraticOrder D := ⟨(f.b - D % 2) / 2, 1⟩

def ideal (D : ℤ) (f : BinaryForm) : Ideal (QuadraticOrder D) :=
  Ideal.span {(f.a : QuadraticOrder D), f.root D}

/-- The group of the classes of forms of discriminant `D`. -/
abbrev FormClass (D : ℤ) [Fact (D < 0)] := ClassGroup (QuadraticOrder D)

noncomputable def classOf (D : ℤ) [Fact (D < 0)] (f : BinaryForm) : FormClass D :=
  IdealClass.of (f.ideal D)

section

variable {D : ℤ} {f g : BinaryForm}

theorem b_parity (hd : f.disc = D) : 2 * ((f.b - D % 2) / 2) = f.b - D % 2 := by
  have hb : f.b * f.b % 2 = f.b % 2 := by
    rcases Int.emod_two_eq_zero_or_one f.b with h | h <;> simp [Int.mul_emod, h]
  unfold disc at hd
  omega

theorem order_const (hd : f.disc = D) : 4 * ((D - D % 2) / 4) = D - D % 2 := by
  have hb : f.b * f.b % 4 = f.b % 2 := by
    have h4 : f.b % 4 = 0 ∨ f.b % 4 = 1 ∨ f.b % 4 = 2 ∨ f.b % 4 = 3 := by omega
    rcases h4 with h | h | h | h
    · simp [Int.mul_emod, h]
      omega
    · simp [Int.mul_emod, h]
      omega
    · simp [Int.mul_emod, h]
      omega
    · simp [Int.mul_emod, h]
      omega
  unfold disc at hd
  omega

theorem root_mul_root (hd : f.disc = D) :
    f.root D * f.root D = f.b * f.root D - f.a * f.c := by
  have hb := b_parity hd
  have hm := order_const hd
  have ht : D % 2 * (D % 2) = D % 2 := by
    rcases Int.emod_two_eq_zero_or_one D with h | h <;> simp [h]
  unfold disc at hd
  apply QuadraticAlgebra.ext
  · simp only [root, QuadraticAlgebra.re_mul, QuadraticAlgebra.re_sub, QuadraticAlgebra.re_intCast,
      QuadraticAlgebra.im_intCast, Int.cast_id]
    generalize (f.b - D % 2) / 2 = k at hb ⊢
    generalize (D - D % 2) / 4 = m at hm ⊢
    have h4 : 4 * (k * k + m * 1 * 1) = 4 * (f.b * k + m * 0 * 1 - (f.a * f.c + m * 0 * 0)) := by
      linear_combination (2 * k - (f.b + D % 2)) * hb + hm - hd + ht
    linarith
  · simp only [root, QuadraticAlgebra.im_mul, QuadraticAlgebra.im_sub, QuadraticAlgebra.re_intCast,
      QuadraticAlgebra.im_intCast, Int.cast_id]
    linear_combination hb

theorem root_add (hf : f.disc = D) (hg : g.disc = D) {k : ℤ} (hk : g.b = f.b + 2 * k) :
    g.root D = f.root D + k := by
  have hfb := b_parity hf
  have hgb := b_parity hg
  apply QuadraticAlgebra.ext
  · simp only [root, QuadraticAlgebra.re_add, QuadraticAlgebra.re_intCast, Int.cast_id]
    omega
  · simp [root]

theorem norm_combination (hd : f.disc = D) (u v : ℤ) :
    QuadraticAlgebra.norm ((u * f.a + v * f.root D : QuadraticOrder D)) = f.a * f.eval u v := by
  have hb := b_parity hd
  have hm := order_const hd
  have ht : D % 2 * (D % 2) = D % 2 := by
    rcases Int.emod_two_eq_zero_or_one D with h | h <;> simp [h]
  unfold disc at hd
  rw [QuadraticAlgebra.norm_def]
  simp only [root, eval, QuadraticAlgebra.re_mul, QuadraticAlgebra.re_add, QuadraticAlgebra.im_mul,
    QuadraticAlgebra.im_add, QuadraticAlgebra.re_intCast, QuadraticAlgebra.im_intCast, Int.cast_id]
  generalize (f.b - D % 2) / 2 = k at hb ⊢
  generalize (D - D % 2) / 4 = m at hm ⊢
  apply mul_left_cancel₀ (four_ne_zero (α := ℤ))
  linear_combination (4 * u * f.a * v + v * v * (2 * k + D % 2 + f.b)) * hb - v * v * hm -
    v * v * ht + v * v * hd

/-- The ideal is the lattice of its two generators. -/
theorem mem_ideal (hd : f.disc = D) {z : QuadraticOrder D} :
    z ∈ f.ideal D ↔ ∃ u v : ℤ, z = u * f.a + v * f.root D := by
  constructor
  · intro hz
    obtain ⟨x, y, rfl⟩ := Ideal.mem_span_pair.mp hz
    have hsplit : ∀ w : QuadraticOrder D, ∃ w0 w1 : ℤ, w = w0 + w1 * f.root D := by
      intro w
      refine ⟨w.re - w.im * (f.root D).re, w.im, ?_⟩
      apply QuadraticAlgebra.ext
      · simp [QuadraticAlgebra.re_mul]
      · simp [QuadraticAlgebra.im_mul, root]
    obtain ⟨x0, x1, rfl⟩ := hsplit x
    obtain ⟨y0, y1, rfl⟩ := hsplit y
    refine ⟨x0 - y1 * f.c, x1 * f.a + y0 + y1 * f.b, ?_⟩
    push_cast
    linear_combination (y1 : QuadraticOrder D) * root_mul_root hd
  · rintro ⟨u, v, rfl⟩
    exact Ideal.mem_span_pair.mpr ⟨u, v, rfl⟩

theorem exists_bezout (h : f.content = 1) : ∃ u v w : ℤ, u * f.a + v * f.b + w * f.c = 1 := by
  have hc := Int.gcd_eq_gcd_ab (Int.gcd f.a f.b) f.c
  have hab := Int.gcd_eq_gcd_ab f.a f.b
  rw [content] at h
  rw [h] at hc
  generalize Int.gcdA (Int.gcd f.a f.b) f.c = x at hc
  generalize Int.gcdB (Int.gcd f.a f.b) f.c = w at hc
  refine ⟨Int.gcdA f.a f.b * x, Int.gcdB f.a f.b * x, w, ?_⟩
  push_cast at hc
  linear_combination -hc - x * hab

theorem span_pair_mul_span_singleton {R : Type*} [CommRing R] (x y z : R) :
    Ideal.span {z} * Ideal.span {x, y} = Ideal.span {z * x, z * y} := by
  rw [Ideal.span_mul_span', Set.singleton_mul, Set.image_pair]

/-- A pair that is a multiple of the generators of a form spans a multiple of its ideal. -/
theorem span_scale {x y : QuadraticOrder D} (h : x * g.root D = g.a * y) :
    Ideal.span {(g.a : QuadraticOrder D)} * Ideal.span {x, y} = Ideal.span {x} * g.ideal D := by
  rw [ideal, span_pair_mul_span_singleton, span_pair_mul_span_singleton, h, 
    mul_comm (g.a : QuadraticOrder D) x]

theorem ideal_mul_mirror (hd : f.disc = D) (hprim : f.content = 1) :
    f.ideal D * (⟨f.a, -f.b, f.c⟩ : BinaryForm).ideal D =
      Ideal.span {(f.a : QuadraticOrder D)} := by
  have hd' : (⟨f.a, -f.b, f.c⟩ : BinaryForm).disc = D := by
    rw [← hd]
    simp only [disc]
    ring
  have hroot : (⟨f.a, -f.b, f.c⟩ : BinaryForm).root D = f.root D - f.b := by
    rw [root_add (k := -f.b) hd hd' (by ring)]
    push_cast
    ring
  have hmul := root_mul_root hd
  apply le_antisymm
  · rw [ideal, ideal, Ideal.span_mul_span', Ideal.span_le]
    rintro _ ⟨x, hx, y, hy, rfl⟩
    simp only [Set.mem_insert_iff, Set.mem_singleton_iff] at hx hy
    rw [hroot] at hy
    refine Ideal.mem_span_singleton.mpr ?_
    rcases hx with rfl | rfl
    · exact Dvd.intro _ rfl
    · rcases hy with rfl | rfl
      · exact Dvd.intro_left _ rfl
      · exact ⟨-f.c, by linear_combination hmul⟩
  · obtain ⟨u, v, w, h⟩ := exists_bezout hprim
    have hcast := congrArg (Int.cast : ℤ → QuadraticOrder D) h
    push_cast at hcast
    rw [Ideal.span_singleton_le_iff_mem]
    have ha : (f.a : QuadraticOrder D) ∈ f.ideal D := Ideal.subset_span (by simp)
    have hb : f.root D ∈ f.ideal D := Ideal.subset_span (by simp)
    have ha' : (f.a : QuadraticOrder D) ∈ (⟨f.a, -f.b, f.c⟩ : BinaryForm).ideal D :=
      Ideal.subset_span (by simp)
    have hb' : f.root D - f.b ∈ (⟨f.a, -f.b, f.c⟩ : BinaryForm).ideal D := by
      rw [← hroot]
      exact Ideal.subset_span (by simp)
    have hsum : (f.a : QuadraticOrder D) = u * (f.a * f.a) + v * (f.root D * f.a) -
        v * (f.a * (f.root D - f.b)) - w * (f.root D * (f.root D - f.b)) := by
      linear_combination -(f.a : QuadraticOrder D) * hcast + (w : QuadraticOrder D) * hmul
    rw [hsum]
    refine sub_mem (sub_mem (add_mem ?_ ?_) ?_) ?_
    · exact Ideal.mul_mem_left _ _ (Ideal.mul_mem_mul ha ha')
    · exact Ideal.mul_mem_left _ _ (Ideal.mul_mem_mul hb ha')
    · exact Ideal.mul_mem_left _ _ (Ideal.mul_mem_mul ha hb')
    · exact Ideal.mul_mem_left _ _ (Ideal.mul_mem_mul hb hb')

end

section

variable {D : ℤ} [hD : Fact (D < 0)] {f g : BinaryForm}

namespace Proper

theorem positive (hf : f.Proper D) : f.Positive := ⟨hf.pos, by rw [hf.disc]; exact hD.out⟩

theorem of_equivalent (hf : f.Proper D) (h : Equivalent f g) : g.Proper D :=
  ⟨(hf.positive.of_equivalent h).pos, h.disc_eq.trans hf.disc, h.content_eq.trans hf.primitive⟩

omit hD in
theorem mirror (hf : f.Proper D) : (⟨f.a, -f.b, f.c⟩ : BinaryForm).Proper D := by
  refine ⟨hf.pos, ?_, ?_⟩
  · rw [← hf.disc]
    simp only [BinaryForm.disc]
    ring
  · have h := hf.primitive
    simp only [content, Int.gcd_neg] at h ⊢
    exact h

omit hD in
theorem a_ne_zero (hf : f.Proper D) : (f.a : QuadraticOrder D) ≠ 0 := by
  exact_mod_cast hf.pos.ne'

theorem invertible (hf : f.Proper D) : IdealClass.Invertible (f.ideal D) := by
  apply IdealClass.Invertible.of_mul
  rw [ideal_mul_mirror hf.disc hf.primitive]
  exact IdealClass.invertible_span hf.a_ne_zero

end Proper

theorem classOf_mirror (hf : f.Proper D) :
    classOf D ⟨f.a, -f.b, f.c⟩ = (classOf D f)⁻¹ := by
  have hmul := IdealClass.of_mul hf.invertible hf.mirror.invertible
  rw [ideal_mul_mirror hf.disc hf.primitive, IdealClass.of_span hf.a_ne_zero] at hmul
  exact eq_inv_of_mul_eq_one_right hmul.symm

theorem classOf_principal (ha : f.a = 1) : classOf D f = 1 := by
  have hone : f.ideal D = Ideal.span {1} := by
    rw [Ideal.span_singleton_one, Ideal.eq_top_iff_one]
    apply Ideal.subset_span
    simp [ha]
  rw [classOf, hone, IdealClass.of_span one_ne_zero]

theorem classOf_eq_of_equivalent (hf : f.Proper D) (h : Equivalent f g) :
    classOf D g = classOf D f := by
  have hg := hf.of_equivalent h
  obtain ⟨p, q, r, s, hdet, rfl⟩ := h
  have hmul := root_mul_root hf.disc
  have hdet' := congrArg (Int.cast : ℤ → QuadraticOrder D) hdet
  push_cast at hdet'
  -- the columns of the substitution are a second basis of the lattice
  have hspan : f.ideal D =
      Ideal.span {(p * f.a + r * f.root D : QuadraticOrder D), q * f.a + s * f.root D} := by
    apply le_antisymm
    · rw [ideal, Ideal.span_le]
      rintro z hz
      rcases hz with rfl | rfl
      · refine Ideal.mem_span_pair.mpr ⟨s, -r, ?_⟩
        linear_combination (f.a : QuadraticOrder D) * hdet'
      · refine Ideal.mem_span_pair.mpr ⟨-q, p, ?_⟩
        linear_combination (f.root D) * hdet'
    · rw [Ideal.span_le]
      rintro z hz
      rcases hz with rfl | rfl
      · exact (mem_ideal hf.disc).mpr ⟨p, r, rfl⟩
      · exact (mem_ideal hf.disc).mpr ⟨q, s, rfl⟩
  have hroot : (f.subst p q r s).root D =
      f.root D + (f.a * (p * q) + f.b * (q * r) + f.c * (r * s) : ℤ) := by
    refine root_add hf.disc hg.disc ?_
    simp only [subst]
    linear_combination f.b * hdet
  have hscale := span_scale (D := D) (g := f.subst p q r s)
    (x := p * f.a + r * f.root D) (y := q * f.a + s * f.root D) (by
      rw [hroot]
      simp only [subst, eval]
      push_cast
      linear_combination (r : QuadraticOrder D) * hmul -
        (p * f.a * f.root D + r * f.b * f.root D - f.a * r * f.c) * hdet')
  rw [← hspan] at hscale
  have hx : (p * f.a + r * f.root D : QuadraticOrder D) ≠ 0 := by
    intro hzero
    have hnorm := norm_combination hf.disc p r
    rw [hzero, QuadraticAlgebra.norm_zero] at hnorm
    exact (mul_pos hf.pos hg.pos).ne hnorm
  exact ((IdealClass.of_eq_iff hf.invertible hg.invertible).mpr
    ⟨_, _, hg.a_ne_zero, hx, hscale⟩).symm

/-- The oriented area of the parallelogram of two elements. -/
def area (z w : QuadraticOrder D) : ℤ := z.re * w.im - z.im * w.re

omit hD in
theorem area_mul (x z w : QuadraticOrder D) :
    area (x * z) (x * w) = QuadraticAlgebra.norm x * area z w := by
  simp only [area, QuadraticAlgebra.re_mul, QuadraticAlgebra.im_mul, QuadraticAlgebra.norm_def]
  ring

omit hD in
theorem area_combination (f : BinaryForm) (p q r s : ℤ) :
    area (p * f.a + r * f.root D : QuadraticOrder D) (q * f.a + s * f.root D) =
      f.a * (p * s - q * r) := by
  simp only [area, root, QuadraticAlgebra.re_mul, QuadraticAlgebra.re_add, QuadraticAlgebra.im_mul,
    QuadraticAlgebra.im_add, QuadraticAlgebra.re_intCast, QuadraticAlgebra.im_intCast, Int.cast_id]
  ring

omit hD in
theorem combination_inj (ha : f.a ≠ 0) {u v u' v' : ℤ}
    (h : (u * f.a + v * f.root D : QuadraticOrder D) = u' * f.a + v' * f.root D) :
    u = u' ∧ v = v' := by
  have hre := congrArg QuadraticAlgebra.re h
  have him := congrArg QuadraticAlgebra.im h
  simp only [root, QuadraticAlgebra.re_mul, QuadraticAlgebra.re_add, QuadraticAlgebra.im_mul,
    QuadraticAlgebra.im_add, QuadraticAlgebra.re_intCast, QuadraticAlgebra.im_intCast,
    Int.cast_id] at hre him
  have hv : v = v' := by linarith
  subst hv
  exact ⟨mul_right_cancel₀ ha (by linarith), rfl⟩

omit hD in
theorem ext_of_eval {k l : ℤ} (hk : k ≠ 0) (hkl : k = l)
    (h : ∀ u v, k * f.eval u v = l * g.eval u v) : f = g := by
  subst hkl
  have h10 := mul_left_cancel₀ hk (h 1 0)
  have h01 := mul_left_cancel₀ hk (h 0 1)
  have h11 := mul_left_cancel₀ hk (h 1 1)
  simp only [eval] at h10 h01 h11
  apply BinaryForm.ext <;> linarith

omit hD in
/-- What an inclusion of scaled lattices says of their bases. -/
theorem exists_coordinates (hg : g.Proper D) {x y : QuadraticOrder D}
    (hle : Ideal.span {x} * f.ideal D ≤ Ideal.span {y} * g.ideal D) : ∃ p q r s : ℤ,
      x * f.a = y * (p * g.a + r * g.root D) ∧ x * f.root D = y * (q * g.a + s * g.root D) := by
  have hmem : ∀ z ∈ f.ideal D, ∃ u v : ℤ, x * z = y * (u * g.a + v * g.root D) := by
    intro z hz
    have hh := hle (Ideal.mul_mem_mul (Ideal.mem_span_singleton_self x) hz)
    obtain ⟨w, hw, hxy⟩ := Ideal.mem_span_singleton_mul.mp hh
    obtain ⟨u, v, rfl⟩ := (mem_ideal hg.disc).mp hw
    exact ⟨u, v, hxy.symm⟩
  obtain ⟨p, r, h1⟩ := hmem f.a (Ideal.subset_span (by simp))
  obtain ⟨q, s, h2⟩ := hmem (f.root D) (Ideal.subset_span (by simp))
  exact ⟨p, q, r, s, h1, h2⟩

/-- The bases of one lattice, each scaled from its form, differ by a matrix of determinant one. -/
theorem equivalent_of_scaled (hf : f.Proper D) (hg : g.Proper D) {x y : QuadraticOrder D}
    (hx : x ≠ 0) (hy : y ≠ 0) (h : Ideal.span {x} * f.ideal D = Ideal.span {y} * g.ideal D) :
    Equivalent g f := by
  obtain ⟨p, q, r, s, h1, h2⟩ := exists_coordinates hg h.le
  obtain ⟨p', q', r', s', h1', h2'⟩ := exists_coordinates hf h.ge
  have hga := hg.pos.ne'
  have hunit : (p * s - q * r) * (p' * s' - q' * r') = 1 := by
    have hfirst : ((p' * p + r' * q : ℤ) * g.a + (p' * r + r' * s : ℤ) * g.root D :
        QuadraticOrder D) = (1 : ℤ) * g.a + (0 : ℤ) * g.root D := by
      apply mul_left_cancel₀ hy
      push_cast
      linear_combination -h1' - (p' : QuadraticOrder D) * h1 - (r' : QuadraticOrder D) * h2
    have hsecond : ((q' * p + s' * q : ℤ) * g.a + (q' * r + s' * s : ℤ) * g.root D :
        QuadraticOrder D) = (0 : ℤ) * g.a + (1 : ℤ) * g.root D := by
      apply mul_left_cancel₀ hy
      push_cast
      linear_combination -h2' - (q' : QuadraticOrder D) * h1 - (s' : QuadraticOrder D) * h2
    obtain ⟨e1, e2⟩ := combination_inj hga hfirst
    obtain ⟨e3, e4⟩ := combination_inj hga hsecond
    linear_combination (q' * r + s' * s) * e1 + e4 - (p' * r + r' * s) * e3
  have hnx := mul_pos (QuadraticOrder.norm_pos hx) hf.pos
  have hny := mul_pos (QuadraticOrder.norm_pos hy) hg.pos
  have hareas : QuadraticAlgebra.norm x * f.a =
      QuadraticAlgebra.norm y * g.a * (p * s - q * r) := by
    have hh := area_mul x (f.a : QuadraticOrder D) (f.root D)
    have hbasis := area_combination (D := D) f 1 0 0 1
    simp only [Int.cast_one, Int.cast_zero, one_mul, zero_mul, add_zero, zero_add] at hbasis
    rw [h1, h2, area_mul, area_combination, hbasis] at hh
    linarith
  have hdet : p * s - q * r = 1 := by
    have hpos : 0 < p * s - q * r := by
      rw [hareas] at hnx
      exact pos_of_mul_pos_right hnx hny.le
    rcases Int.isUnit_iff.mp (IsUnit.of_mul_eq_one _ hunit) with hh | hh
    · exact hh
    · omega
  refine ⟨p, q, r, s, hdet, ext_of_eval hnx.ne' (by rw [hareas, hdet, mul_one]) ?_⟩
  intro u v
  have hnorm := congrArg QuadraticAlgebra.norm (show x * (u * f.a + v * f.root D) =
      y * ((p * u + q * v : ℤ) * g.a + (r * u + s * v : ℤ) * g.root D) by
    push_cast
    linear_combination (u : QuadraticOrder D) * h1 + (v : QuadraticOrder D) * h2)
  rw [map_mul, map_mul, norm_combination hf.disc, norm_combination hg.disc] at hnorm
  rw [eval_subst]
  linarith

/-- Equal classes of reduced forms are equal forms. -/
theorem eq_of_classOf_eq (hf : f.Proper D) (hg : g.Proper D) (hrf : f.Reduced) (hrg : g.Reduced)
    (h : classOf D f = classOf D g) : f = g := by
  obtain ⟨x, y, hx, hy, hxy⟩ := (IdealClass.of_eq_iff hf.invertible hg.invertible).mp h
  exact Reduced.unique hg.positive hrg hrf (equivalent_of_scaled hf hg hx hy hxy)

theorem classOf_eq_iff (hf : f.Proper D) (hg : g.Proper D) :
    classOf D f = classOf D g ↔ Equivalent f g := by
  constructor
  · intro h
    obtain ⟨x, y, hx, hy, hxy⟩ := (IdealClass.of_eq_iff hf.invertible hg.invertible).mp h
    exact (equivalent_of_scaled hf hg hx hy hxy).symm
  · intro h
    exact (classOf_eq_of_equivalent hf h).symm

end

end BinaryForm
