import Mathlib.Algebra.Order.Ring.Abs
import Mathlib.Data.Int.GCD
import Mathlib.Tactic.LinearCombination
import Mathlib.Tactic.Linarith
import Mathlib.Tactic.Ring

/-! Integral binary quadratic forms up to proper equivalence, and the reduced form
of a class of positive definite forms. -/

@[ext] structure BinaryForm where
  a : ℤ
  b : ℤ
  c : ℤ
  deriving DecidableEq

namespace BinaryForm

def disc (f : BinaryForm) : ℤ := f.b * f.b - 4 * (f.a * f.c)

def eval (f : BinaryForm) (x y : ℤ) : ℤ := f.a * (x * x) + f.b * (x * y) + f.c * (y * y)

def content (f : BinaryForm) : ℕ := Int.gcd (Int.gcd f.a f.b) f.c

/-- The form `f (p x + q y, r x + s y)`. -/
def subst (f : BinaryForm) (p q r s : ℤ) : BinaryForm :=
  ⟨f.eval p r, 2 * f.a * (p * q) + f.b * (p * s + q * r) + 2 * f.c * (r * s), f.eval q s⟩

def Equivalent (f g : BinaryForm) : Prop :=
  ∃ p q r s, p * s - q * r = 1 ∧ g = f.subst p q r s

structure Positive (f : BinaryForm) : Prop where
  pos : 0 < f.a
  neg : f.disc < 0

structure Reduced (f : BinaryForm) : Prop where
  lower : -f.a < f.b
  upper : f.b ≤ f.a
  le : f.a ≤ f.c
  sign : f.a = f.c → 0 ≤ f.b

theorem disc_subst (f : BinaryForm) (p q r s : ℤ) :
    (f.subst p q r s).disc = (p * s - q * r) ^ 2 * f.disc := by
  simp only [subst, disc, eval]
  ring

theorem subst_subst (f : BinaryForm) (p q r s p' q' r' s' : ℤ) :
    (f.subst p q r s).subst p' q' r' s' =
      f.subst (p * p' + q * r') (p * q' + q * s') (r * p' + s * r') (r * q' + s * s') := by
  simp only [subst, eval, mk.injEq]
  refine ⟨by ring, by ring, by ring⟩

theorem subst_id (f : BinaryForm) : f.subst 1 0 0 1 = f := by
  simp [subst, eval]

theorem eval_subst (f : BinaryForm) (p q r s x y : ℤ) :
    (f.subst p q r s).eval x y = f.eval (p * x + q * y) (r * x + s * y) := by
  simp only [subst, eval]
  ring

namespace Equivalent

theorem refl (f : BinaryForm) : Equivalent f f := ⟨1, 0, 0, 1, by norm_num, (subst_id f).symm⟩

theorem symm {f g : BinaryForm} (h : Equivalent f g) : Equivalent g f := by
  obtain ⟨p, q, r, s, hdet, rfl⟩ := h
  refine ⟨s, -q, -r, p, by linear_combination hdet, ?_⟩
  rw [subst_subst]
  have h1 : p * s + q * -r = 1 := by linear_combination hdet
  have h2 : r * -q + s * p = 1 := by linear_combination hdet
  rw [h1, h2, show p * -q + q * p = 0 by ring, show r * s + s * -r = 0 by ring, subst_id]

theorem trans {f g h : BinaryForm} (hfg : Equivalent f g) (hgh : Equivalent g h) :
    Equivalent f h := by
  obtain ⟨p, q, r, s, hdet, rfl⟩ := hfg
  obtain ⟨p', q', r', s', hdet', rfl⟩ := hgh
  refine ⟨_, _, _, _, ?_, subst_subst f p q r s p' q' r' s'⟩
  linear_combination hdet * (p' * s' - q' * r') + hdet'

theorem disc_eq {f g : BinaryForm} (h : Equivalent f g) : g.disc = f.disc := by
  obtain ⟨p, q, r, s, hdet, rfl⟩ := h
  rw [disc_subst, hdet, one_pow, one_mul]

theorem translate (f : BinaryForm) (k : ℤ) :
    Equivalent f ⟨f.a, f.b + 2 * f.a * k, f.a * (k * k) + f.b * k + f.c⟩ := by
  refine ⟨1, k, 0, 1, by ring, ?_⟩
  simp only [subst, eval, mk.injEq]
  refine ⟨by ring, by ring, by ring⟩

theorem invert (f : BinaryForm) : Equivalent f ⟨f.c, -f.b, f.a⟩ := by
  refine ⟨0, -1, 1, 0, by ring, ?_⟩
  simp only [subst, eval, mk.injEq]
  refine ⟨by ring, by ring, by ring⟩

/-- The mirror images of equivalent forms are equivalent. -/
theorem mirror {f g : BinaryForm} (h : Equivalent f g) :
    Equivalent ⟨f.a, -f.b, f.c⟩ ⟨g.a, -g.b, g.c⟩ := by
  obtain ⟨p, q, r, s, hdet, rfl⟩ := h
  refine ⟨p, -q, -r, s, by linear_combination hdet, ?_⟩
  simp only [subst, eval, mk.injEq]
  refine ⟨by ring, by ring, by ring⟩

end Equivalent

theorem dvd_content_iff (f : BinaryForm) (d : ℕ) :
    d ∣ f.content ↔ (d : ℤ) ∣ f.a ∧ (d : ℤ) ∣ f.b ∧ (d : ℤ) ∣ f.c := by
  rw [content, Int.dvd_gcd_iff, Int.dvd_natCast.trans (by rw [Int.natAbs_natCast]),
    Int.dvd_gcd_iff, and_assoc]

theorem content_dvd_subst (f : BinaryForm) (p q r s : ℤ) :
    f.content ∣ (f.subst p q r s).content := by
  obtain ⟨⟨a, ha⟩, ⟨b, hb⟩, ⟨c, hc⟩⟩ := (f.dvd_content_iff f.content).mp dvd_rfl
  refine ((f.subst p q r s).dvd_content_iff f.content).mpr ?_
  simp only [subst, eval]
  refine ⟨⟨a * (p * p) + b * (p * r) + c * (r * r), ?_⟩,
    ⟨2 * a * (p * q) + b * (p * s + q * r) + 2 * c * (r * s), ?_⟩,
    ⟨a * (q * q) + b * (q * s) + c * (s * s), ?_⟩⟩
  · rw [ha, hb, hc]
    ring
  · rw [ha, hb, hc]
    ring
  · rw [ha, hb, hc]
    ring

theorem Equivalent.content_eq {f g : BinaryForm} (h : Equivalent f g) : g.content = f.content := by
  apply Nat.dvd_antisymm
  · obtain ⟨p, q, r, s, -, rfl⟩ := h.symm
    exact content_dvd_subst g p q r s
  · obtain ⟨p, q, r, s, -, rfl⟩ := h
    exact content_dvd_subst f p q r s

namespace Positive

theorem eval_pos {f : BinaryForm} (hf : f.Positive) {x y : ℤ} (h : x ≠ 0 ∨ y ≠ 0) :
    0 < f.eval x y := by
  have hpos := hf.pos
  have hneg := hf.neg
  have hsquare : 4 * f.a * f.eval x y = (2 * f.a * x + f.b * y) ^ 2 + (-f.disc) * (y * y) := by
    simp only [eval, disc]
    ring
  by_cases hy : y = 0
  · subst hy
    have hx : x ≠ 0 := by simpa using h
    have hxx : 0 < x * x := mul_self_pos.mpr hx
    simpa [eval] using mul_pos hpos hxx
  · have hyy : 0 < y * y := mul_self_pos.mpr hy
    have hright : 0 < (2 * f.a * x + f.b * y) ^ 2 + (-f.disc) * (y * y) :=
      add_pos_of_nonneg_of_pos (sq_nonneg _) (mul_pos (by linarith) hyy)
    rw [← hsquare] at hright
    exact pos_of_mul_pos_right hright (by linarith)

theorem c_pos {f : BinaryForm} (hf : f.Positive) : 0 < f.c := by
  simpa [eval] using hf.eval_pos (x := 0) (y := 1) (Or.inr one_ne_zero)

theorem of_equivalent {f g : BinaryForm} (hf : f.Positive) (h : Equivalent f g) : g.Positive := by
  constructor
  · obtain ⟨p, q, r, s, hdet, rfl⟩ := h
    apply hf.eval_pos
    by_contra hzero
    obtain ⟨rfl, rfl⟩ : p = 0 ∧ r = 0 := by simpa [not_or] using hzero
    simp at hdet
  · rw [h.disc_eq]
    exact hf.neg

end Positive

namespace Reduced

/-- Away from the axes the values of a reduced form are at least `a - |b| + c`. -/
theorem le_eval {f : BinaryForm} (hf : f.Reduced) {x y : ℤ} (hx : x ≠ 0) (hy : y ≠ 0) :
    f.a - |f.b| + f.c ≤ f.eval x y := by
  have hb : |f.b| ≤ f.a := abs_le.mpr ⟨hf.lower.le, hf.upper⟩
  have hb0 := abs_nonneg f.b
  have hac := hf.le
  have hx1 : 1 ≤ |x| := Int.one_le_abs hx
  have hy1 : 1 ≤ |y| := Int.one_le_abs hy
  have hcross : -(|f.b| * (|x| * |y|)) ≤ f.b * (x * y) := by
    rw [← abs_mul, ← abs_mul]
    exact neg_abs_le _
  have hxx : x * x = |x| * |x| := (abs_mul_abs_self x).symm
  have hyy : y * y = |y| * |y| := (abs_mul_abs_self y).symm
  have hbound : f.a * (|x| * |x|) - |f.b| * (|x| * |y|) + f.c * (|y| * |y|) ≤ f.eval x y := by
    rw [eval, hxx, hyy]
    linarith
  refine le_trans ?_ hbound
  rcases le_total |y| |x| with hle | hle
  · have h1 : 0 ≤ |f.b| * (|x| * (|x| - |y|)) :=
      mul_nonneg hb0 (mul_nonneg (by linarith) (by linarith))
    have h2 : 0 ≤ (f.a - |f.b|) * (|x| * |x| - 1) :=
      mul_nonneg (by linarith) (by nlinarith)
    have h3 : 0 ≤ f.c * (|y| * |y| - 1) := mul_nonneg (by linarith) (by nlinarith)
    nlinarith
  · have h1 : 0 ≤ |f.b| * (|y| * (|y| - |x|)) :=
      mul_nonneg hb0 (mul_nonneg (by linarith) (by linarith))
    have h2 : 0 ≤ (f.c - |f.b|) * (|y| * |y| - 1) :=
      mul_nonneg (by linarith) (by nlinarith)
    have h3 : 0 ≤ f.a * (|x| * |x| - 1) := mul_nonneg (by linarith) (by nlinarith)
    nlinarith

theorem a_le_eval {f : BinaryForm} (hf : f.Reduced) {x y : ℤ} (h : x ≠ 0 ∨ y ≠ 0) :
    f.a ≤ f.eval x y := by
  have hb : |f.b| ≤ f.a := abs_le.mpr ⟨hf.lower.le, hf.upper⟩
  have hac := hf.le
  have ha : 0 ≤ f.a := le_trans (abs_nonneg f.b) hb
  by_cases hx : x = 0
  · subst hx
    have hy : 1 ≤ y * y := Int.add_one_le_iff.mpr (mul_self_pos.mpr (by simpa using h))
    have hmul : 0 ≤ f.c * (y * y - 1) := mul_nonneg (by linarith) (by linarith)
    simp only [eval]
    linarith
  · by_cases hy : y = 0
    · subst hy
      have hxx : 1 ≤ x * x := Int.add_one_le_iff.mpr (mul_self_pos.mpr hx)
      have hmul : 0 ≤ f.a * (x * x - 1) := mul_nonneg ha (by linarith)
      simp only [eval]
      linarith
    · have hh := hf.le_eval hx hy
      linarith

theorem a_le {f g : BinaryForm} (hf : f.Reduced) (h : Equivalent f g) : f.a ≤ g.a := by
  obtain ⟨p, q, r, s, hdet, rfl⟩ := h
  apply hf.a_le_eval
  by_contra hzero
  obtain ⟨rfl, rfl⟩ : p = 0 ∧ r = 0 := by simpa [not_or] using hzero
  simp at hdet

/-- Two numbers of a window of length `2 a` that differ by a multiple of `2 a`. -/
theorem eq_of_window {a b b' k : ℤ} (hlow : -a < b) (hup : b ≤ a) (hlow' : -a < b') (hup' : b' ≤ a)
    (h : b' = b + 2 * a * k) : b' = b := by
  have ha : 0 < a := by linarith
  have hk : k = 0 := by
    rcases lt_trichotomy k 0 with hk | hk | hk
    · have hh : 2 * a * k ≤ 2 * a * (-1) := mul_le_mul_of_nonneg_left (by linarith) (by linarith)
      linarith
    · exact hk
    · have hh : 2 * a * 1 ≤ 2 * a * k := mul_le_mul_of_nonneg_left (by linarith) (by linarith)
      linarith
  rw [h, hk, mul_zero, add_zero]

theorem ext_of_a_b {f g : BinaryForm} (ha0 : 0 < f.a) (ha : g.a = f.a) (hb : g.b = f.b)
    (hdisc : g.disc = f.disc) : g = f := by
  have hc : f.a * g.c = f.a * f.c := by
    simp only [disc, ha, hb] at hdisc
    linarith
  exact BinaryForm.ext ha hb (mul_left_cancel₀ ha0.ne' hc)

/-- The middle coefficient is known from its size where the outer ones agree. -/
theorem b_eq_of_abs {f g : BinaryForm} (ha0 : 0 < f.a) (hf : f.Reduced) (hg : g.Reduced)
    (ha : g.a = f.a) (hac : f.a = f.c) (hdisc : g.disc = f.disc) (hb : |g.b| = |f.b|) :
    g.b = f.b := by
  have hbb : g.b * g.b = f.b * f.b := by
    rw [← abs_mul_abs_self g.b, ← abs_mul_abs_self f.b, hb]
  have hc : f.a * g.c = f.a * f.c := by
    simp only [disc, ha] at hdisc
    linarith
  have hg0 := hg.sign (by rw [ha, mul_left_cancel₀ ha0.ne' hc, hac])
  rwa [abs_of_nonneg hg0, abs_of_nonneg (hf.sign hac)] at hb

theorem abs_b_invert {f : BinaryForm} (hf : f.Reduced) {q r s : ℤ} (hqr : q * r = -1)
    (ha : (f.subst 0 q r s).a = f.a) (hlow : -f.a < (f.subst 0 q r s).b)
    (hup : (f.subst 0 q r s).b ≤ f.a) : f.a = f.c ∧ |(f.subst 0 q r s).b| = |f.b| := by
  have hrr : r * r = 1 := by
    rcases Int.isUnit_iff.mp (IsUnit.of_mul_eq_one (-q) (by linarith : r * -q = 1)) with h1 | h1
    · rw [h1, one_mul]
    · rw [h1]
      ring
  have hac : f.a = f.c := by
    simp only [subst, eval] at ha
    rw [hrr] at ha
    linarith
  refine ⟨hac, ?_⟩
  have hb0 := hf.sign hac
  have hb : (f.subst 0 q r s).b = -f.b + 2 * f.a * (r * s) := by
    simp only [subst]
    rw [hac]
    linear_combination f.b * hqr
  by_cases hba : f.b = f.a
  · have hh : (f.subst 0 q r s).b = f.b :=
      eq_of_window (k := r * s - 1) hf.lower hf.upper hlow hup (by rw [hb, hba]; ring)
    rw [hh]
  · have hlt := lt_of_le_of_ne hf.upper hba
    have hh : (f.subst 0 q r s).b = -f.b :=
      eq_of_window (k := r * s) (by linarith) (by linarith) hlow hup hb
    rw [hh, abs_neg]

/-- A value equal to `a` away from the axes leaves only the form `(a, a, a)`. -/
theorem abs_b_interior {f g : BinaryForm} (ha0 : 0 < f.a) (hf : f.Reduced) (hg : g.Reduced)
    (ha : g.a = f.a) (hdisc : g.disc = f.disc) {x y : ℤ} (hx : x ≠ 0) (hy : y ≠ 0)
    (hvalue : f.eval x y = f.a) : f.a = f.c ∧ |g.b| = |f.b| := by
  have hbound := hf.le_eval hx hy
  rw [hvalue] at hbound
  have hb : |f.b| ≤ f.a := abs_le.mpr ⟨hf.lower.le, hf.upper⟩
  have hac : f.a = f.c := le_antisymm hf.le (by linarith)
  have hba : f.b = f.a := by
    rw [abs_of_nonneg (hf.sign hac)] at hbound hb
    linarith
  refine ⟨hac, ?_⟩
  have hle := hg.le
  have hlow := hg.lower
  have hup := hg.upper
  rw [ha] at hle hlow hup
  have hsquare : f.a ^ 2 ≤ g.b ^ 2 := by
    simp only [disc] at hdisc
    rw [ha, hba, ← hac] at hdisc
    nlinarith
  have habs := sq_le_sq.mp hsquare
  rw [abs_of_pos ha0] at habs
  rw [hba, abs_of_pos ha0]
  exact le_antisymm (abs_le.mpr ⟨hlow.le, hup⟩) habs

theorem unique {f g : BinaryForm} (hpos : f.Positive) (hf : f.Reduced) (hg : g.Reduced)
    (h : Equivalent f g) : g = f := by
  have ha : g.a = f.a := le_antisymm (hg.a_le h.symm) (hf.a_le h)
  have hdisc := h.disc_eq
  have ha0 := hpos.pos
  have hlow := hg.lower
  have hup := hg.upper
  rw [ha] at hlow hup
  refine ext_of_a_b ha0 ha ?_ hdisc
  obtain ⟨p, q, r, s, hdet, rfl⟩ := h
  by_cases hr : r = 0
  · subst hr
    have hps : p * s = 1 := by linarith
    refine eq_of_window (k := p * q) hf.lower hf.upper hlow hup ?_
    simp only [subst]
    linear_combination f.b * hps
  · by_cases hp : p = 0
    · subst hp
      obtain ⟨hac, hb⟩ := hf.abs_b_invert (by linarith) ha hlow hup
      exact b_eq_of_abs ha0 hf hg ha hac hdisc hb
    · obtain ⟨hac, hb⟩ := abs_b_interior ha0 hf hg ha hdisc hp hr ha
      exact b_eq_of_abs ha0 hf hg ha hac hdisc hb

end Reduced

end BinaryForm
