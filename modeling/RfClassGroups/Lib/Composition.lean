import Mathlib.RingTheory.Int.Basic
import RfClassGroups.Lib.FormClass

/-! Composition of forms by a two by four integer matrix: its minors are the coefficients
of the two forms, and the class of the composed form is the product of their classes. -/

structure CompositionMatrix where
  Ax : ℤ
  Bx : ℤ
  Cx : ℤ
  Dx : ℤ
  Ay : ℤ
  By : ℤ
  Cy : ℤ
  Dy : ℤ

namespace CompositionMatrix

open BinaryForm

def left (M : CompositionMatrix) : BinaryForm :=
  ⟨M.Ax * M.By - M.Bx * M.Ay, (M.Ax * M.Dy - M.Dx * M.Ay) - (M.Bx * M.Cy - M.Cx * M.By),
    M.Cx * M.Dy - M.Dx * M.Cy⟩

def right (M : CompositionMatrix) : BinaryForm :=
  ⟨M.Ax * M.Cy - M.Cx * M.Ay, (M.Ax * M.Dy - M.Dx * M.Ay) + (M.Bx * M.Cy - M.Cx * M.By),
    M.Bx * M.Dy - M.Dx * M.By⟩

def form (M : CompositionMatrix) : BinaryForm :=
  ⟨M.By * M.Cy - M.Ay * M.Dy, (M.Ax * M.Dy + M.Ay * M.Dx) - (M.Bx * M.Cy + M.By * M.Cx),
    M.Bx * M.Cx - M.Ax * M.Dx⟩

theorem disc_form (M : CompositionMatrix) : M.form.disc = M.left.disc := by
  simp only [left, form, disc]
  ring

theorem eval_mul_eval (M : CompositionMatrix) (x y z w : ℤ) :
    M.left.eval x y * M.right.eval z w =
      M.form.eval (M.Ax * (x * z) + M.Bx * (x * w) + M.Cx * (y * z) + M.Dx * (y * w))
        (M.Ay * (x * z) + M.By * (x * w) + M.Cy * (y * z) + M.Dy * (y * w)) := by
  simp only [left, right, form, eval]
  ring

/-- The rows, multiplied on the left by the matrix `p q` over `r s`. -/
def rows (M : CompositionMatrix) (p q r s : ℤ) : CompositionMatrix :=
  ⟨p * M.Ax + q * M.Ay, p * M.Bx + q * M.By, p * M.Cx + q * M.Cy, p * M.Dx + q * M.Dy,
    r * M.Ax + s * M.Ay, r * M.Bx + s * M.By, r * M.Cx + s * M.Cy, r * M.Dx + s * M.Dy⟩

theorem left_rows (M : CompositionMatrix) {p q r s : ℤ} (h : p * s - q * r = 1) :
    (M.rows p q r s).left = M.left := by
  apply BinaryForm.ext <;> simp only [left, rows]
  · linear_combination (M.Ax * M.By - M.Bx * M.Ay) * h
  · linear_combination (M.Ax * M.Dy - M.Dx * M.Ay - (M.Bx * M.Cy - M.Cx * M.By)) * h
  · linear_combination (M.Cx * M.Dy - M.Dx * M.Cy) * h

theorem right_rows (M : CompositionMatrix) {p q r s : ℤ} (h : p * s - q * r = 1) :
    (M.rows p q r s).right = M.right := by
  apply BinaryForm.ext <;> simp only [right, rows]
  · linear_combination (M.Ax * M.Cy - M.Cx * M.Ay) * h
  · linear_combination (M.Ax * M.Dy - M.Dx * M.Ay + (M.Bx * M.Cy - M.Cx * M.By)) * h
  · linear_combination (M.Bx * M.Dy - M.Dx * M.By) * h

/-- The values of a primitive form have no common prime factor. -/
theorem exists_eval_not_dvd {f : BinaryForm} (hf : f.content = 1) {p : ℕ} (hp : p.Prime) :
    ∃ x y : ℤ, ¬ (p : ℤ) ∣ f.eval x y := by
  by_contra hall
  have hdvd : ∀ x y : ℤ, (p : ℤ) ∣ f.eval x y := by
    intro x y
    by_contra h
    exact hall ⟨x, y, h⟩
  have h10 := hdvd 1 0
  have h01 := hdvd 0 1
  have h11 := hdvd 1 1
  simp only [eval, mul_one, mul_zero, add_zero, zero_add] at h10 h01 h11
  have hb : (p : ℤ) ∣ f.b := by
    have hh := dvd_sub (dvd_sub h11 h10) h01
    ring_nf at hh
    exact hh
  have hone := (f.dvd_content_iff p).mpr ⟨h10, hb, h01⟩
  rw [hf] at hone
  exact hp.one_lt.ne' (Nat.dvd_one.mp hone)

theorem content_form {M : CompositionMatrix} (hl : M.left.content = 1)
    (hr : M.right.content = 1) : M.form.content = 1 := by
  by_contra hne
  obtain ⟨p, hp, hdvd⟩ := Nat.exists_prime_and_dvd hne
  obtain ⟨ha, hb, hc⟩ := (M.form.dvd_content_iff p).mp hdvd
  obtain ⟨x, y, hxy⟩ := exists_eval_not_dvd hl hp
  obtain ⟨z, w, hzw⟩ := exists_eval_not_dvd hr hp
  have hmul : (p : ℤ) ∣ M.left.eval x y * M.right.eval z w := by
    rw [eval_mul_eval, eval]
    exact dvd_add (dvd_add (ha.mul_right _) (hb.mul_right _)) (hc.mul_right _)
  rcases (Nat.prime_iff_prime_int.mp hp).dvd_or_dvd hmul with hh | hh
  · exact hxy hh
  · exact hzw hh

/-- `a` of the composed form is a value of the right one over `a` of the left one. -/
theorem a_mul_a (M : CompositionMatrix) :
    M.left.a * M.form.a = M.right.eval M.By (-M.Ay) := by
  simp only [left, right, form, eval]
  ring

/-- The common divisor of the second column is the one of the minors it takes part in. -/
theorem gcd_second_column {M : CompositionMatrix} (h : M.left.content = 1) :
    Int.gcd M.Bx M.By = Int.gcd (Int.gcd M.left.a (M.Bx * M.Cy - M.Cx * M.By)) M.right.c := by
  apply Nat.dvd_antisymm
  · have hx := Int.gcd_dvd_left M.Bx M.By
    have hy := Int.gcd_dvd_right M.Bx M.By
    refine Int.dvd_gcd (Int.dvd_coe_gcd ?_ ?_) ?_
    · exact dvd_sub (hy.mul_left _) (hx.mul_right _)
    · exact dvd_sub (hx.mul_right _) (hy.mul_left _)
    · exact dvd_sub (hx.mul_right _) (hy.mul_left _)
  · obtain ⟨u, v, w, huvw⟩ := exists_bezout h
    have hab := (Int.gcd_dvd_left (Int.gcd M.left.a (M.Bx * M.Cy - M.Cx * M.By)) M.right.c).trans
      (Int.gcd_dvd_left M.left.a (M.Bx * M.Cy - M.Cx * M.By))
    have hbc := (Int.gcd_dvd_left (Int.gcd M.left.a (M.Bx * M.Cy - M.Cx * M.By)) M.right.c).trans
      (Int.gcd_dvd_right M.left.a (M.Bx * M.Cy - M.Cx * M.By))
    have hbd := Int.gcd_dvd_right (Int.gcd M.left.a (M.Bx * M.Cy - M.Cx * M.By)) M.right.c
    generalize Int.gcd (Int.gcd M.left.a (M.Bx * M.Cy - M.Cx * M.By)) M.right.c = d at *
    simp only [left, right] at hab hbd huvw
    apply Int.dvd_gcd
    · have hh : M.Bx = (u * M.Bx + v * M.Dx) * (M.Ax * M.By - M.Bx * M.Ay) +
          (-v * M.Bx - w * M.Dx) * (M.Bx * M.Cy - M.Cx * M.By) +
          (v * M.Ax + w * M.Cx) * (M.Bx * M.Dy - M.Dx * M.By) := by
        linear_combination -M.Bx * huvw
      rw [hh]
      exact dvd_add (dvd_add (hab.mul_left _) (hbc.mul_left _)) (hbd.mul_left _)
    · have hh : M.By = (u * M.By + v * M.Dy) * (M.Ax * M.By - M.Bx * M.Ay) +
          (-v * M.By - w * M.Dy) * (M.Bx * M.Cy - M.Cx * M.By) +
          (v * M.Ay + w * M.Cy) * (M.Bx * M.Dy - M.Dx * M.By) := by
        linear_combination -M.By * huvw
      rw [hh]
      exact dvd_add (dvd_add (hab.mul_left _) (hbc.mul_left _)) (hbd.mul_left _)

section

variable {D : ℤ} {M : CompositionMatrix}

theorem left_root (hl : M.left.disc = D) (hr : M.right.disc = D) :
    M.left.root D = M.right.root D - (M.Bx * M.Cy - M.Cx * M.By : ℤ) := by
  have hh := root_add (k := M.Bx * M.Cy - M.Cx * M.By) hl hr (by
    simp only [left, right]
    ring)
  rw [hh]
  ring

theorem form_root (hl : M.left.disc = D) (hr : M.right.disc = D) :
    M.form.root D = M.right.root D - (M.Bx * M.Cy - M.Ay * M.Dx : ℤ) := by
  have hh := root_add (k := M.Bx * M.Cy - M.Ay * M.Dx) (D := D) (f := M.form) (g := M.right)
    (by rw [disc_form, hl]) hr (by
      simp only [form, right]
      ring)
  rw [hh]
  ring

/-- The basis of the product of the two lattices in which the products of their bases have
the columns of the matrix as coordinates. -/
def basisX (D : ℤ) (M : CompositionMatrix) : QuadraticOrder D :=
  M.By * M.right.a - M.Ay * M.right.root D

def basisY (D : ℤ) (M : CompositionMatrix) : QuadraticOrder D :=
  M.Ax * M.right.root D - M.Bx * M.right.a

theorem products (hl : M.left.disc = D) (hr : M.right.disc = D) :
    M.left.a * M.right.a = (M.Ax * M.basisX D + M.Ay * M.basisY D : QuadraticOrder D) ∧
    M.left.a * M.right.root D = M.Bx * M.basisX D + M.By * M.basisY D ∧
    M.left.root D * M.right.a = M.Cx * M.basisX D + M.Cy * M.basisY D ∧
    M.left.root D * M.right.root D = M.Dx * M.basisX D + M.Dy * M.basisY D := by
  have hmul := root_mul_root hr
  rw [left_root hl hr]
  simp only [basisX, basisY]
  simp only [left, right] at hmul ⊢
  push_cast at hmul ⊢
  refine ⟨by ring, by ring, by ring, ?_⟩
  linear_combination hmul

theorem ideal_mul (hl : M.left.disc = D) (hr : M.right.disc = D) (hprim : M.left.content = 1) :
    M.left.ideal D * M.right.ideal D = Ideal.span {M.basisX D, M.basisY D} := by
  obtain ⟨hA, hB, hC, hD⟩ := products hl hr
  apply le_antisymm
  · rw [ideal, ideal, Ideal.span_mul_span', Ideal.span_le]
    rintro _ ⟨x, hx, y, hy, rfl⟩
    rcases hx with rfl | rfl
    · rcases hy with rfl | rfl
      · exact Ideal.mem_span_pair.mpr ⟨M.Ax, M.Ay, hA.symm⟩
      · exact Ideal.mem_span_pair.mpr ⟨M.Bx, M.By, hB.symm⟩
    · rcases hy with rfl | rfl
      · exact Ideal.mem_span_pair.mpr ⟨M.Cx, M.Cy, hC.symm⟩
      · exact Ideal.mem_span_pair.mpr ⟨M.Dx, M.Dy, hD.symm⟩
  · obtain ⟨u, v, w, h⟩ := exists_bezout hprim
    have hbez := congrArg (Int.cast : ℤ → QuadraticOrder D) h
    simp only [left] at hbez
    push_cast at hbez
    have hmem : ∀ s t : QuadraticOrder D, s ∈ M.left.ideal D → t ∈ M.right.ideal D → ∀ k : ℤ,
        (k : QuadraticOrder D) * (s * t) ∈ M.left.ideal D * M.right.ideal D :=
      fun s t hs ht k => Ideal.mul_mem_left _ _ (Ideal.mul_mem_mul hs ht)
    have hla : (M.left.a : QuadraticOrder D) ∈ M.left.ideal D := Ideal.subset_span (by simp)
    have hlr : M.left.root D ∈ M.left.ideal D := Ideal.subset_span (by simp)
    have hra : (M.right.a : QuadraticOrder D) ∈ M.right.ideal D := Ideal.subset_span (by simp)
    have hrr : M.right.root D ∈ M.right.ideal D := Ideal.subset_span (by simp)
    -- every minor times a basis vector is a combination of the two products it comes from
    have hcomb : ∀ k1 k2 k3 k4 : ℤ, k1 * (M.left.a * M.right.a) +
        k2 * (M.left.a * M.right.root D) + k3 * (M.left.root D * M.right.a) +
        k4 * (M.left.root D * M.right.root D) ∈ M.left.ideal D * M.right.ideal D := by
      intro k1 k2 k3 k4
      refine add_mem (add_mem (add_mem ?_ ?_) ?_) ?_
      · exact hmem _ _ hla hra k1
      · exact hmem _ _ hla hrr k2
      · exact hmem _ _ hlr hra k3
      · exact hmem _ _ hlr hrr k4
    rw [Ideal.span_le]
    intro z hz
    rcases hz with rfl | rfl
    · change M.basisX D ∈ M.left.ideal D * M.right.ideal D
      have hh := hcomb (u * M.By + v * M.Dy) (-u * M.Ay - v * M.Cy) (w * M.Dy + v * M.By)
        (-w * M.Cy - v * M.Ay)
      rw [hA, hB, hC, hD] at hh
      convert hh using 1
      push_cast
      linear_combination -(M.basisX D) * hbez
    · change M.basisY D ∈ M.left.ideal D * M.right.ideal D
      have hh := hcomb (-u * M.Bx - v * M.Dx) (u * M.Ax + v * M.Cx) (-w * M.Dx - v * M.Bx)
        (w * M.Cx + v * M.Ax)
      rw [hA, hB, hC, hD] at hh
      convert hh using 1
      push_cast
      linear_combination -(M.basisY D) * hbez

theorem basisX_mul_root (hl : M.left.disc = D) (hr : M.right.disc = D) :
    M.basisX D * M.form.root D = M.form.a * M.basisY D := by
  have hmul := root_mul_root hr
  rw [form_root hl hr]
  simp only [basisX, basisY]
  simp only [right, form] at hmul ⊢
  push_cast at hmul ⊢
  linear_combination -(M.Ay : QuadraticOrder D) * hmul

end

section

variable {D : ℤ} [Fact (D < 0)] {M : CompositionMatrix}

theorem eval_pos (hl : M.left.Proper D) (hr : M.right.Proper D) :
    0 < M.right.eval M.By (-M.Ay) := by
  apply hr.positive.eval_pos
  by_contra hzero
  obtain ⟨hy, ha⟩ : M.By = 0 ∧ M.Ay = 0 := by simpa [not_or] using hzero
  have hpos := hl.pos
  simp [left, hy, ha] at hpos

theorem proper_form (hl : M.left.Proper D) (hr : M.right.Proper D) : M.form.Proper D := by
  refine ⟨?_, ?_, content_form hl.primitive hr.primitive⟩
  · have hpos := eval_pos hl hr
    rw [← a_mul_a] at hpos
    exact pos_of_mul_pos_right hpos hl.pos.le
  · rw [disc_form, hl.disc]

theorem basisX_ne_zero (hl : M.left.Proper D) (hr : M.right.Proper D) : M.basisX D ≠ 0 := by
  intro hzero
  have hnorm := norm_combination hr.disc M.By (-M.Ay)
  have hx : (M.By * M.right.a + (-M.Ay : ℤ) * M.right.root D : QuadraticOrder D) = M.basisX D := by
    rw [basisX]
    push_cast
    ring
  rw [hx, hzero, QuadraticAlgebra.norm_zero] at hnorm
  exact (mul_pos hr.pos (eval_pos hl hr)).ne hnorm

theorem classOf_form (hl : M.left.Proper D) (hr : M.right.Proper D) :
    classOf D M.form = classOf D M.left * classOf D M.right := by
  have hform := proper_form hl hr
  have hscale := span_scale (basisX_mul_root hl.disc hr.disc)
  rw [← ideal_mul hl.disc hr.disc hl.primitive] at hscale
  rw [classOf, classOf, classOf, ← IdealClass.of_mul hl.invertible hr.invertible]
  exact ((IdealClass.of_eq_iff (hl.invertible.mul hr.invertible) hform.invertible).mpr
    ⟨_, _, hform.a_ne_zero, basisX_ne_zero hl hr, hscale⟩).symm

end

end CompositionMatrix
