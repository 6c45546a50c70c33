import RfClassGroups.Lib.FormClass
import RfClassGroups.Lib.WhileLoop
import RfClassGroups.Mpz

/-! The quadratic forms under the ciphertexts: normalization, the reduction loop, the
inverse, and the neutral form of a class group. -/

open BinaryForm ExceptList

namespace RfClassGroups.Bicycl

abbrev QFI := BinaryForm

/-- `mpz_cdiv_qr`: the quotient is rounded up. -/
def cdivQr (n d : Mpz) : Mpz × Mpz :=
  let q := -((-n).fdiv d)
  (q, n - q * d)

namespace QFI

def discriminant (f : QFI) : Mpz := -(4 * (f.a * f.c) - f.b * f.b)

def isOne (f : QFI) : Bool := f.a == 1

def neg (f : QFI) : QFI := if f.a ≠ f.c ∧ f.a ≠ f.b then ⟨f.a, -f.b, f.c⟩ else f

/-- The two divisions are exact where `4 a` divides `b² - disc`. -/
def setCFromDisc (f : QFI) (disc : Mpz) : QFI := ⟨f.a, f.b, (f.b * f.b - disc) / f.a / 4⟩

def normalize (f : QFI) : QFI :=
  let (q, r) := cdivQr f.b f.a
  let r := if q % 2 = 1 then r + f.a else r
  let q := q / 2
  ⟨f.a, r, f.c - q * ((r + f.b) / 2)⟩

def rho (f : QFI) : QFI := normalize ⟨f.c, -f.b, f.a⟩

def larger (f : QFI) : Bool := decide (f.c.natAbs < f.a.natAbs)

/-- Each round lowers `|a|`, so that the rounds never run out. -/
def reductionLoop (f : QFI) : Option QFI := WhileLoop.run larger rho f.a.natAbs f.normalize

def fixSign (f : QFI) : QFI :=
  if f.a.natAbs = f.c.natAbs ∧ f.b < 0 then ⟨f.a, -f.b, f.c⟩ else f

def reduction (f : QFI) : QFI := ((reductionLoop f).map fixSign).getD f

end QFI

structure ClassGroup where
  discriminant : Mpz
  negative : discriminant < 0
  residue : discriminant % 4 = 0 ∨ discriminant % 4 = 1

namespace ClassGroup

def mk? (d : Mpz) : Except String ClassGroup :=
  if h1 : d < 0 then
    if h2 : d % 4 = 0 ∨ d % 4 = 1 then return ⟨d, h1, h2⟩
    else throw "the discriminant must == 0, 1 mod 4"
  else throw "the discriminant must be negative"

/-- The checks accept the discriminants that a class group has. -/
theorem mk?_ok {d : Mpz} {cl : ClassGroup} : mk? d = .ok cl ↔ cl.discriminant = d := by
  constructor
  · intro h
    unfold mk? at h
    split_ifs at h
    cases h
    rfl
  · rintro rfl
    rw [mk?, dif_pos cl.negative, dif_pos cl.residue]
    rfl

/-- `|disc|^(1/4)` rounded down. -/
def defaultNucompBound (cl : ClassGroup) : Mpz := (Nat.sqrt (Nat.sqrt cl.discriminant.natAbs) : ℕ)

def one (cl : ClassGroup) : QFI :=
  let b : Mpz := if cl.discriminant % 2 = 1 then 1 else 0
  ⟨1, b, (b - cl.discriminant) / 4⟩

end ClassGroup

namespace QFI

theorem discriminant_eq (f : QFI) : f.discriminant = f.disc := by
  simp only [discriminant, disc]
  ring

theorem cdivQr_spec (n : Mpz) {d : Mpz} (hd : 0 < d) :
    n = d * (cdivQr n d).1 + (cdivQr n d).2 ∧ -d < (cdivQr n d).2 ∧ (cdivQr n d).2 ≤ 0 := by
  dsimp only [Mpz] at n d
  simp only [cdivQr, Int.fdiv_eq_ediv_of_nonneg (-n) hd.le]
  have hdiv := Int.mul_ediv_add_emod (-n) d
  have hlow := Int.emod_nonneg (-n) hd.ne'
  have hup := Int.emod_lt_of_pos (-n) hd
  generalize -n / d = k at hdiv ⊢
  refine ⟨by ring, by linarith [mul_comm d k], by linarith [mul_comm d k]⟩

structure Normal (f : QFI) : Prop where
  lower : -f.a < f.b
  upper : f.b ≤ f.a

theorem translate_back (f : QFI) (k r : Mpz) (h : f.b = 2 * f.a * k + r) :
    Equivalent f ⟨f.a, r, f.c - k * ((r + f.b) / 2)⟩ := by
  have hhalf : (r + f.b) / 2 = r + f.a * k := by
    rw [h, show r + (2 * f.a * k + r) = 2 * (r + f.a * k) by ring]
    exact Int.mul_ediv_cancel_left _ two_ne_zero
  have hr : f.b + 2 * f.a * -k = r := by linarith
  have hc : f.a * (-k * -k) + f.b * -k + f.c = f.c - k * (r + f.a * k) := by
    rw [h]
    ring
  have ht := Equivalent.translate f (-k)
  rw [hr, hc] at ht
  rw [hhalf]
  exact ht

/-- Normalization translates the form into the window `-a < b ≤ a`. -/
theorem normalize_spec {f : QFI} (ha : 0 < f.a) :
    f.normalize.Normal ∧ f.normalize.a = f.a ∧ Equivalent f f.normalize := by
  obtain ⟨hb, hlow, hup⟩ := cdivQr_spec f.b ha
  have heq : f.normalize = ⟨f.a,
      if (cdivQr f.b f.a).1 % 2 = 1 then (cdivQr f.b f.a).2 + f.a else (cdivQr f.b f.a).2,
      f.c - (cdivQr f.b f.a).1 / 2 * (((if (cdivQr f.b f.a).1 % 2 = 1 then
        (cdivQr f.b f.a).2 + f.a else (cdivQr f.b f.a).2) + f.b) / 2)⟩ := rfl
  rw [heq]
  generalize (cdivQr f.b f.a).1 = q at *
  generalize (cdivQr f.b f.a).2 = r at *
  have hq := Int.mul_ediv_add_emod q 2
  by_cases hodd : q % 2 = 1
  · rw [if_pos hodd]
    refine ⟨⟨by linarith, by linarith⟩, rfl, translate_back f (q / 2) (r + f.a) ?_⟩
    rw [hodd] at hq
    linear_combination hb - f.a * hq
  · rw [if_neg hodd]
    refine ⟨⟨hlow, by linarith⟩, rfl, translate_back f (q / 2) r ?_⟩
    have heven : q % 2 = 0 := (Int.emod_two_eq_zero_or_one q).resolve_right hodd
    rw [heven] at hq
    linear_combination hb - f.a * hq

theorem rho_spec {f : QFI} (hc : 0 < f.c) :
    f.rho.Normal ∧ f.rho.a = f.c ∧ Equivalent f f.rho := by
  obtain ⟨hnormal, ha, hequiv⟩ := normalize_spec (f := ⟨f.c, -f.b, f.a⟩) hc
  exact ⟨hnormal, ha, (Equivalent.invert f).trans hequiv⟩

theorem natAbs_rho_a (f : QFI) : f.rho.a.natAbs = f.c.natAbs := rfl

/-- The loop of a reduction ends, on any coefficients. -/
theorem reductionLoop_isSome (f : QFI) :
    ∃ g, reductionLoop f = some g ∧ larger g = false := by
  have hstep : ∀ g : QFI, True → larger g = true → True ∧ g.rho.a.natAbs < g.a.natAbs := by
    intro g _ hg
    rw [natAbs_rho_a]
    exact ⟨trivial, of_decide_eq_true hg⟩
  obtain ⟨g, hrun, -, hexit⟩ := WhileLoop.run_terminates (s := f.normalize)
    (fun g : QFI => g.a.natAbs) hstep trivial (le_refl f.a.natAbs)
  exact ⟨g, hrun, hexit⟩

theorem reductionLoop_spec {f : QFI} (hf : f.Positive) :
    ∃ g, reductionLoop f = some g ∧ g.Normal ∧ g.a ≤ g.c ∧ Equivalent f g := by
  obtain ⟨hnormal, -, hequiv⟩ := normalize_spec hf.pos
  have hstep : ∀ g : QFI, g.Normal ∧ Equivalent f g → larger g = true →
      (g.rho.Normal ∧ Equivalent f g.rho) ∧ g.rho.a.natAbs < g.a.natAbs := by
    intro g hg hguard
    obtain ⟨hn, -, he⟩ := rho_spec (hf.of_equivalent hg.2).c_pos
    rw [natAbs_rho_a]
    exact ⟨⟨hn, hg.2.trans he⟩, of_decide_eq_true hguard⟩
  obtain ⟨g, hrun, ⟨hg, hfg⟩, hexit⟩ := WhileLoop.run_terminates (s := f.normalize)
    (fun g : QFI => g.a.natAbs) hstep ⟨hnormal, hequiv⟩ (le_refl f.a.natAbs)
  refine ⟨g, hrun, hg, ?_, hfg⟩
  have hpos := hf.of_equivalent hfg
  have ha := hpos.pos
  have hc := hpos.c_pos
  have hle := of_decide_eq_false hexit
  omega

theorem fixSign_spec {g : QFI} (hg : g.Positive) (hnormal : g.Normal) (hle : g.a ≤ g.c) :
    g.fixSign.Reduced ∧ Equivalent g g.fixSign := by
  have ha := hg.pos
  have hlow := hnormal.lower
  have hup := hnormal.upper
  unfold fixSign
  by_cases h : g.a.natAbs = g.c.natAbs ∧ g.b < 0
  · have hac : g.a = g.c := by
      have hc := hg.c_pos
      have habs := h.1
      omega
    rw [if_pos h]
    refine ⟨⟨?_, ?_, hle, ?_⟩, ?_⟩
    · show -g.a < -g.b
      linarith [h.2]
    · show -g.b ≤ g.a
      linarith
    · intro _
      show 0 ≤ -g.b
      linarith [h.2]
    · have hinv := Equivalent.invert g
      rw [← hac] at hinv ⊢
      exact hinv
  · rw [if_neg h]
    refine ⟨⟨hlow, hup, hle, ?_⟩, Equivalent.refl g⟩
    intro hac
    by_contra hneg
    exact h ⟨by rw [hac], by linarith⟩

theorem reduction_spec {f : QFI} (hf : f.Positive) :
    f.reduction.Reduced ∧ Equivalent f f.reduction := by
  obtain ⟨g, hrun, hnormal, hle, hequiv⟩ := reductionLoop_spec hf
  obtain ⟨hred, hfix⟩ := fixSign_spec (hf.of_equivalent hequiv) hnormal hle
  have heq : f.reduction = g.fixSign := by simp [reduction, hrun]
  rw [heq]
  exact ⟨hred, hequiv.trans hfix⟩

theorem reduction_eq_of_equivalent {f g : QFI} (hf : f.Positive) (h : Equivalent f g) :
    g.reduction = f.reduction := by
  have hg := hf.of_equivalent h
  obtain ⟨hredf, heqf⟩ := reduction_spec hf
  obtain ⟨hredg, heqg⟩ := reduction_spec hg
  exact Reduced.unique (hf.of_equivalent heqf) hredf hredg ((heqf.symm.trans h).trans heqg)

theorem reduction_of_reduced {f : QFI} (hf : f.Positive) (h : f.Reduced) : f.reduction = f :=
  Reduced.unique hf h (reduction_spec hf).1 (reduction_spec hf).2

/-- The reduced form is a name of the class of a form. -/
theorem reduction_canonical {f g : QFI} (hf : f.Positive) (hg : g.Positive) :
    f.reduction.Reduced ∧ Equivalent f f.reduction ∧
      (f.reduction = g.reduction ↔ Equivalent f g) := by
  obtain ⟨hredf, heqf⟩ := reduction_spec hf
  refine ⟨hredf, heqf, ?_, ?_⟩
  · intro h
    have heqg := (reduction_spec hg).2
    rw [← h] at heqg
    exact heqf.trans heqg.symm
  · intro h
    exact (reduction_eq_of_equivalent hf h).symm

theorem reduction_canonical_eleven :
    (reduction ⟨15, 7, 1⟩ : QFI).Reduced ∧ Equivalent ⟨15, 7, 1⟩ ⟨3, 1, 1⟩ := by
  have h := reduction_canonical (f := ⟨15, 7, 1⟩) (g := ⟨3, 1, 1⟩) ⟨by decide, by decide⟩
    ⟨by decide, by decide⟩
  exact ⟨h.1, h.2.2.mp (by decide)⟩

/-- The inverse of a reduced form stays reduced at both borders of the window. -/
theorem neg_spec {f : QFI} (hred : f.Reduced) :
    f.neg.Reduced ∧ Equivalent ⟨f.a, -f.b, f.c⟩ f.neg := by
  have hlow := hred.lower
  have hup := hred.upper
  have hle := hred.le
  unfold neg
  obtain ⟨a, b, c⟩ := f
  dsimp only at hlow hup hle ⊢
  by_cases hac : a = c
  · subst hac
    rw [if_neg (fun h => h.1 rfl)]
    have hinv := Equivalent.invert ⟨a, -b, a⟩
    simp only [neg_neg] at hinv
    exact ⟨hred, hinv⟩
  · by_cases hab : a = b
    · subst hab
      rw [if_neg (fun h => h.2 rfl)]
      have ht := Equivalent.translate ⟨a, -a, c⟩ 1
      have hb : -a + 2 * a * 1 = a := by ring
      have hc : a * (1 * 1) + -a * 1 + c = c := by ring
      simp only [hb, hc] at ht
      exact ⟨hred, ht⟩
    · rw [if_pos ⟨hac, hab⟩]
      refine ⟨⟨?_, ?_, hle, fun h => absurd h hac⟩, Equivalent.refl _⟩
      · show -a < -b
        have := lt_of_le_of_ne hup (Ne.symm hab)
        linarith
      · show -b ≤ a
        linarith

end QFI

namespace ClassGroup

variable {cl : ClassGroup}

instance : Fact (cl.discriminant < 0) := ⟨cl.negative⟩

theorem one_coefficients {d : ℤ} (hneg : d < 0) (hres : d % 4 = 0 ∨ d % 4 = 1) :
    ∃ b : ℤ, (if d % 2 = 1 then 1 else 0) = b ∧ (b = 0 ∨ b = 1) ∧ 4 * ((b - d) / 4) = b - d ∧
      1 ≤ (b - d) / 4 := by
  by_cases hodd : d % 2 = 1
  · refine ⟨1, if_pos hodd, Or.inr rfl, ?_, ?_⟩ <;> omega
  · refine ⟨0, if_neg hodd, Or.inl rfl, ?_, ?_⟩ <;> omega

theorem one_spec (cl : ClassGroup) : cl.one.Proper cl.discriminant ∧ cl.one.Reduced := by
  obtain ⟨b, hb, hb01, hc, hpos⟩ := one_coefficients cl.negative cl.residue
  have heq : cl.one = ⟨1, b, (b - cl.discriminant) / 4⟩ := by
    rw [← hb]
    rfl
  rw [heq]
  have hbb : b * b = b := by rcases hb01 with h | h <;> rw [h] <;> rfl
  refine ⟨⟨one_pos, ?_, by simp [content]⟩, ⟨?_, ?_, hpos, fun _ => ?_⟩⟩
  · simp only [disc]
    linarith
  · show -1 < b
    omega
  · show b ≤ 1
    omega
  · show 0 ≤ b
    omega

theorem classOf_one (cl : ClassGroup) : classOf cl.discriminant cl.one = 1 := classOf_principal rfl

/-- What every public operation of the class keeps: a primitive positive form of the
discriminant, reduced. -/
structure Elt (cl : ClassGroup) where
  form : QFI
  proper : form.Proper cl.discriminant
  reduced : form.Reduced

variable {cl : ClassGroup}

theorem Elt.eq_of_classOf {x y : cl.Elt}
    (h : classOf cl.discriminant x.form = classOf cl.discriminant y.form) : x.form = y.form :=
  eq_of_classOf_eq x.proper y.proper x.reduced y.reduced h

theorem isOne_iff (x : cl.Elt) : x.form.isOne = true ↔ x.form = cl.one := by
  obtain ⟨hproper, hred⟩ := cl.one_spec
  constructor
  · intro h
    have ha : x.form.a = 1 := by simpa [QFI.isOne] using h
    apply eq_of_classOf_eq x.proper hproper x.reduced hred
    rw [classOf_principal ha, classOf_one]
  · intro h
    rw [h]
    rfl

theorem reduction_elt {f : QFI} (hf : f.Proper cl.discriminant) :
    f.reduction.Proper cl.discriminant ∧ f.reduction.Reduced ∧
      classOf cl.discriminant f.reduction = classOf cl.discriminant f := by
  obtain ⟨hred, hequiv⟩ := QFI.reduction_spec hf.positive
  exact ⟨hf.of_equivalent hequiv, hred, classOf_eq_of_equivalent hf hequiv⟩

theorem neg_elt (x : cl.Elt) :
    x.form.neg.Proper cl.discriminant ∧ x.form.neg.Reduced ∧
      classOf cl.discriminant x.form.neg = (classOf cl.discriminant x.form)⁻¹ := by
  obtain ⟨hred, hequiv⟩ := QFI.neg_spec x.reduced
  refine ⟨x.proper.mirror.of_equivalent hequiv, hred, ?_⟩
  rw [classOf_eq_of_equivalent x.proper.mirror hequiv, classOf_mirror x.proper]

end ClassGroup

end RfClassGroups.Bicycl
