import Mathlib.Tactic.NormNum.LegendreSymbol
import RfClassGroups.Lib.KernelForm
import RfClassGroups.PowerOfF

/-! The way between the forms of discriminant `DeltaK` and those of discriminant `Delta`: the
lift, its inverse direction into the maximal order, and the homomorphism of the compact
variant. -/

open BinaryForm IdealClass

namespace RfClassGroups.Bicycl

namespace QFI

/-- An equivalent form with first coefficient prime to the prime `l`. -/
def primeTo (f : QFI) (l : Mpz) : QFI :=
  if 1 < Int.gcd f.a l then
    if 1 < Int.gcd f.c l then ⟨f.c + f.a + f.b, -(f.b + f.a + f.a), f.a⟩
    else ⟨f.c, -f.b, f.a⟩
  else f

def lift (f : QFI) (l : Mpz) : QFI :=
  let f := f.primeTo l
  reduction ⟨f.a, f.b * l, f.c * l * l⟩

def toMaximalOrder (f : QFI) (l deltaK : Mpz) (withReduction : Bool) : QFI :=
  let f := f.primeTo l
  let (_, g0, g1) := gcdext l f.a
  let f := setCFromDisc ⟨f.a, f.b * g0 + f.a * g1, f.c⟩ deltaK
  if withReduction then f.reduction else f

theorem primeTo_equivalent (f : BinaryForm) (l : ℤ) : Equivalent f (primeTo f l) := by
  by_cases ha : 1 < Int.gcd f.a l
  · by_cases hc : 1 < Int.gcd f.c l
    · rw [primeTo, if_pos ha, if_pos hc]
      refine ⟨1, -1, 1, 0, by norm_num, ?_⟩
      simp only [subst, eval, mk.injEq]
      refine ⟨by ring, by ring, by ring⟩
    · rw [primeTo, if_pos ha, if_neg hc]
      exact Equivalent.invert f
  · rw [primeTo, if_neg ha]
    exact Equivalent.refl f

theorem coprime_of_gcd_le {x l : ℤ} (hl : l ≠ 0) (h : ¬ 1 < Int.gcd x l) : IsCoprime x l := by
  rw [Int.isCoprime_iff_gcd_eq_one]
  have hpos := Int.gcd_pos_of_ne_zero_right x hl
  omega

theorem dvd_of_one_lt_gcd {x l : ℤ} (hl : Prime l) (h : 1 < Int.gcd x l) : l ∣ x := by
  by_contra hdvd
  have hcop := (hl.coprime_iff_not_dvd.mpr hdvd).symm
  rw [Int.isCoprime_iff_gcd_eq_one] at hcop
  omega

theorem primeTo_coprime {f : BinaryForm} (hf : f.content = 1) {l : ℤ} (hl : Prime l) :
    IsCoprime (primeTo f l).a l := by
  by_cases ha : 1 < Int.gcd f.a l
  · by_cases hc : 1 < Int.gcd f.c l
    · rw [primeTo, if_pos ha, if_pos hc]
      have hla := dvd_of_one_lt_gcd hl ha
      have hlc := dvd_of_one_lt_gcd hl hc
      refine (hl.coprime_iff_not_dvd.mpr fun hsum => ?_).symm
      obtain ⟨u, v, w, huvw⟩ := exists_bezout hf
      have hlb : l ∣ f.b := (dvd_add_right (dvd_add hlc hla)).mp hsum
      apply hl.not_dvd_one
      rw [← huvw]
      exact dvd_add (dvd_add (hla.mul_left u) (hlb.mul_left v)) (hlc.mul_left w)
    · rw [primeTo, if_pos ha, if_neg hc]
      exact coprime_of_gcd_le hl.ne_zero hc
  · rw [primeTo, if_neg ha]
    exact coprime_of_gcd_le hl.ne_zero ha

section

variable {q d D : ℤ}

theorem prime_not_dvd {a : ℤ} (hcop : IsCoprime a q) {r : ℕ} (hr : r.Prime) (ha : (r : ℤ) ∣ a) :
    ¬ (r : ℤ) ∣ q := fun hq =>
  (Nat.prime_iff_prime_int.mp hr).not_isUnit (hcop.isUnit_of_dvd' ha hq)

/-- A form is primitive if its common divisors are, up to factors `q`, those of a primitive
form. -/
theorem content_eq_one {f g : BinaryForm} (hg : g.content = 1) (hcop : IsCoprime f.a q)
    (hdvd : ∀ r, r ∣ f.a → r ∣ f.b → r ∣ f.c → r ∣ g.a ∧ r ∣ g.b * q ∧ r ∣ g.c * q * q) :
    f.content = 1 := by
  by_contra hne
  obtain ⟨r, hr, hcontent⟩ := Nat.exists_prime_and_dvd hne
  obtain ⟨hra, hrb, hrc⟩ := (f.dvd_content_iff r).mp hcontent
  obtain ⟨hga, hgb, hgc⟩ := hdvd r hra hrb hrc
  have hrq := prime_not_dvd hcop hr hra
  have hprime := Nat.prime_iff_prime_int.mp hr
  have hone := (g.dvd_content_iff r).mpr ⟨hga, (hprime.dvd_or_dvd hgb).resolve_right hrq,
    (hprime.dvd_or_dvd ((hprime.dvd_or_dvd hgc).resolve_right hrq)).resolve_right hrq⟩
  rw [hg] at hone
  exact hr.not_dvd_one hone

theorem liftForm_proper (h : Suborder q d D) {f : BinaryForm} (hf : f.Proper d)
    (hcop : IsCoprime f.a q) : (⟨f.a, f.b * q, f.c * q * q⟩ : BinaryForm).Proper D := by
  refine ⟨hf.pos, ?_, content_eq_one hf.primitive hcop fun r ha hb hc => ⟨ha, hb, hc⟩⟩
  rw [h.eq, ← hf.disc]
  simp only [disc]
  ring

theorem setCFromDisc_eq {a b c c' d : ℤ} (ha : a ≠ 0) (h : b * b - d = 4 * a * c) :
    setCFromDisc ⟨a, b, c'⟩ d = ⟨a, b, c⟩ := by
  simp only [setCFromDisc, mk.injEq, true_and]
  rw [h, mul_comm 4 a, mul_assoc, Int.mul_ediv_cancel_left _ ha,
    Int.mul_ediv_cancel_left _ four_ne_zero]

/-- The second coefficient in the maximal order makes the division for the third one exact. -/
theorem maximalForm_spec (h : Suborder q d D) {g : BinaryForm} (hg : g.Proper D) {g0 g1 : ℤ}
    (hbezout : q * g0 + g.a * g1 = 1) :
    (setCFromDisc ⟨g.a, g.b * g0 + g.a * g1, g.c⟩ d).Proper d ∧
      ∃ k, g.b = q * (g.b * g0 + g.a * g1) + 2 * (g.a * k) := by
  have hq := h.odd
  have hpos := hg.pos
  have hdisc := hg.disc
  rw [h.eq, disc] at hdisc
  -- both discriminants are odd
  have hb : g.b % 2 = 1 := by
    have hpar := b_parity hg.disc
    have hD := h.constants.1
    omega
  obtain ⟨w, hw⟩ : ∃ w, q - g.b = 2 * w := ⟨(q - g.b) / 2, by omega⟩
  have hcop : IsCoprime (4 * g.a) (q * q) := by
    have ha : IsCoprime g.a q := ⟨g1, g0, by linarith⟩
    have h4 : IsCoprime (4 : ℤ) q := by
      obtain ⟨k, hk⟩ : ∃ k, q = 2 * k + 1 := ⟨q / 2, by omega⟩
      exact ⟨-k * k - k, q, by rw [hk]; ring⟩
    exact ((h4.mul_left ha).mul_right (h4.mul_left ha))
  obtain ⟨b, hbdef⟩ : ∃ b, b = g.b * g0 + g.a * g1 := ⟨_, rfl⟩
  have hqb : q * b = g.b + 2 * (g.a * (g1 * w)) := by
    rw [hbdef]
    linear_combination g.b * hbezout + g.a * g1 * hw
  have hsquare : q * q * (b * b - d) = 4 * g.a * (g.c + g.b * g1 * w + g.a * (g1 * w) * (g1 * w)) := by
    linear_combination (q * b + g.b + 2 * (g.a * (g1 * w))) * hqb + hdisc
  obtain ⟨c, hc⟩ : 4 * g.a ∣ b * b - d := hcop.dvd_of_dvd_mul_left ⟨_, hsquare⟩
  rw [← hbdef, setCFromDisc_eq hpos.ne' hc]
  refine ⟨⟨hpos, ?_, ?_⟩, -(g1 * w), by linarith⟩
  · simp only [disc]
    linarith
  · have hcq : q * q * c = g.c + g.b * g1 * w + g.a * (g1 * w) * (g1 * w) := by
      apply mul_left_cancel₀ (mul_ne_zero four_ne_zero hpos.ne')
      linear_combination hsquare - q * q * hc
    refine content_eq_one (q := q) hg.primitive ⟨g1, g0, by linarith⟩ ?_
    intro r hra hrb hrc
    have hrgb : r ∣ g.b := by
      have hsum : g.b = q * b - g.a * (2 * (g1 * w)) := by linarith
      rw [hsum]
      exact dvd_sub (hrb.mul_left q) (hra.mul_right _)
    have hrgc : r ∣ g.c := by
      have hsum : g.c = q * q * c - g.b * (g1 * w) - g.a * ((g1 * w) * (g1 * w)) := by linarith
      rw [hsum]
      exact dvd_sub (dvd_sub (hrc.mul_left _) (hrgb.mul_right _)) (hra.mul_right _)
    exact ⟨hra, hrgb.mul_right q, (hrgc.mul_right q).mul_right q⟩

end

end QFI

namespace ClassGroup

variable {clK cl : ClassGroup} {q : ℤ} (h : Suborder q clK.discriminant cl.discriminant)
  (hq : Prime q)

include h hq in
theorem lift_spec (x : clK.Elt) :
    (QFI.lift x.form q).Proper cl.discriminant ∧ (QFI.lift x.form q).Reduced ∧
      h.extendClass (QFI.lift x.form q) = x.toClass := by
  have hequiv := QFI.primeTo_equivalent x.form q
  have hproper := x.proper.of_equivalent hequiv
  have hcop := QFI.primeTo_coprime x.proper.primitive hq
  have hlift := QFI.liftForm_proper h hproper hcop
  obtain ⟨hp, hr, hcls⟩ := reduction_elt hlift
  refine ⟨hp, hr, ?_⟩
  have hideal := h.map_ideal_eq hproper.disc hlift.disc rfl hcop (k := 0)
    (by rw [mul_zero, mul_zero, add_zero, mul_comm])
  rw [Elt.toClass, ← classOf_eq_of_equivalent x.proper hequiv, classOf, ← hideal]
  exact h.extendClass_eq hp hlift hcls

include h hq in
theorem toMaximalOrder_spec (x : cl.Elt) :
    (QFI.toMaximalOrder x.form q clK.discriminant true).Proper clK.discriminant ∧
      (QFI.toMaximalOrder x.form q clK.discriminant true).Reduced ∧
      classOf clK.discriminant (QFI.toMaximalOrder x.form q clK.discriminant true) =
        h.extendClass x.form := by
  have hequiv := QFI.primeTo_equivalent x.form q
  have hproper := x.proper.of_equivalent hequiv
  have hcop := QFI.primeTo_coprime x.proper.primitive hq
  obtain ⟨g0, g1, hext, hgcd⟩ := gcdext_spec q (QFI.primeTo x.form q).a
  rw [Int.isCoprime_iff_gcd_eq_one.mp hcop.symm] at hgcd
  obtain ⟨hmax, k, hk⟩ := QFI.maximalForm_spec h hproper hgcd.symm
  have hform : QFI.toMaximalOrder x.form q clK.discriminant true = QFI.reduction
      (QFI.setCFromDisc ⟨(QFI.primeTo x.form q).a, (QFI.primeTo x.form q).b * g0 +
        (QFI.primeTo x.form q).a * g1, (QFI.primeTo x.form q).c⟩ clK.discriminant) := by
    rw [QFI.toMaximalOrder, hext]
    rfl
  rw [hform]
  obtain ⟨hp, hr, hcls⟩ := reduction_elt hmax
  refine ⟨hp, hr, hcls.trans ?_⟩
  rw [h.extendClass_eq x.proper hproper (classOf_eq_of_equivalent x.proper hequiv).symm,
    Suborder.extendClass, h.map_ideal_eq hmax.disc hproper.disc rfl hcop hk]
  rfl

end ClassGroup

namespace CLHSMq

variable {cs : CLHSMq} {E : Euclid}

theorem suborder (cs : CLHSMq) : Suborder cs.q cs.clDeltaK.discriminant cs.clDelta.discriminant :=
  ⟨rfl, cs.q_odd, cs.residue⟩

def lift (x : Forms cs.clDeltaK E) : Forms cs.clDelta E :=
  have h := ClassGroup.lift_spec cs.suborder cs.prime_q_int x
  Forms.of E ⟨QFI.lift x.form cs.M, h.1, h.2.1⟩

def toMaximalOrder (x : Forms cs.clDelta E) : Forms cs.clDeltaK E :=
  have h := ClassGroup.toMaximalOrder_spec cs.suborder cs.prime_q_int x
  Forms.of E ⟨QFI.toMaximalOrder x.form cs.M cs.deltaK true, h.1, h.2.1⟩

/-- `CL_HSMqk::from_Cl_DeltaK_to_Cl_Delta`: the lift, raised to the power `M`. -/
def fromClDeltaKToClDelta (x : Forms cs.clDeltaK E) : Forms cs.clDelta E := lift x ^ cs.M

theorem toClass_toMaximalOrder (x : Forms cs.clDelta E) :
    (toMaximalOrder x).toClass = cs.suborder.extendClass x.form :=
  (ClassGroup.toMaximalOrder_spec cs.suborder cs.prime_q_int x).2.2

theorem toMaximalOrder_mul (x y : Forms cs.clDelta E) :
    toMaximalOrder (x * y) = toMaximalOrder x * toMaximalOrder y := by
  apply Forms.toClass_injective
  rw [Forms.toClass_mul, toClass_toMaximalOrder, toClass_toMaximalOrder, toClass_toMaximalOrder]
  exact cs.suborder.extendClass_mul x.proper y.proper
    (x * y).proper (Forms.toClass_mul x y)

def toMaximalOrderHom (cs : CLHSMq) (E : Euclid) : Forms cs.clDelta E →* Forms cs.clDeltaK E :=
  MonoidHom.mk' toMaximalOrder toMaximalOrder_mul

/-- A lift to the non-maximal order leads back. -/
theorem toMaximalOrder_lift (x : Forms cs.clDeltaK E) : toMaximalOrder (lift x) = x := by
  apply Forms.toClass_injective
  rw [toClass_toMaximalOrder]
  exact (ClassGroup.lift_spec cs.suborder cs.prime_q_int x).2.2

theorem toMaximalOrder_eq_one_iff (x : Forms cs.clDelta E) :
    toMaximalOrder x = 1 ↔ cs.suborder.extendClass x.form = 1 := by
  have hone : (1 : Forms cs.clDeltaK E).toClass = 1 := Forms.toClass_one
  rw [← toClass_toMaximalOrder, ← hone]
  exact Forms.toClass_injective.eq_iff.symm

/-- The class of a form in the kernel is that of a power of `f`. -/
theorem kernel_class {x : Forms cs.clDelta E} (hx : toMaximalOrder x = 1) :
    ∃ m : ℤ, x.toClass = classOf cs.clDelta.discriminant (cs.powerOfF m) := by
  have hequiv := QFI.primeTo_equivalent x.form cs.q
  have hproper := x.proper.of_equivalent hequiv
  have hcop := QFI.primeTo_coprime x.proper.primitive cs.prime_q_int
  have hclass := classOf_eq_of_equivalent x.proper hequiv
  have hone := (toMaximalOrder_eq_one_iff x).mp hx
  rw [cs.suborder.extendClass_eq x.proper hproper hclass.symm] at hone
  have hx' : x.toClass = classOf cs.clDelta.discriminant (QFI.primeTo x.form cs.q) := hclass.symm
  rcases cs.suborder.classOf_kernel cs.prime_q_int cs.q_pos dvd_deltaK hproper hcop hone with
    h | ⟨m, L, hL, h⟩
  · refine ⟨0, ?_⟩
    rw [hx', h, powerOfF_zero (dvd_zero _), cs.clDelta.classOf_one]
  · refine ⟨m, ?_⟩
    have hm : ¬ (cs.q : ℤ) ∣ m := by
      intro hdvd
      exact cs.prime_q_int.not_dvd_one ((dvd_sub_right (hdvd.mul_left L)).mp hL.inverse)
    obtain ⟨L', hform, hL', -, -⟩ := powerOfF_unit hm
    rw [hx', h, hform]
    exact classOf_eq_of_equivalent
      (conductorForm_proper cs.prime_q_int cs.q_pos dvd_deltaK deltaK_residue rfl hL')
      (conductorForm_equivalent_of_inverse cs.prime_q_int cs.q_odd deltaK_residue hL' hL)

theorem kernel_pow {x : Forms cs.clDelta E} (hx : toMaximalOrder x = 1) : x ^ cs.M = 1 := by
  obtain ⟨m, hm⟩ := kernel_class hx
  apply Forms.toClass_injective
  have hpow := map_zpow cs.powerOfFClass (Multiplicative.ofAdd m) cs.M
  have hzero : cs.powerOfFClass (Multiplicative.ofAdd m ^ cs.M) = 1 := by
    show classOf cs.clDelta.discriminant (cs.powerOfF ((cs.q : ℤ) * m)) = 1
    rw [powerOfF_zero (dvd_mul_right _ m), cs.clDelta.classOf_one]
  rw [Forms.toClass_zpow, hm, Forms.toClass_one, ← hzero]
  exact hpow.symm

/-- The lift itself need not be a homomorphism; the error lies in the kernel, which the power
removes. -/
theorem fromClDeltaKToClDelta_mul (x y : Forms cs.clDeltaK E) :
    fromClDeltaKToClDelta (x * y) = fromClDeltaKToClDelta x * fromClDeltaKToClDelta y := by
  have hker : toMaximalOrderHom cs E (lift (x * y) / (lift x * lift y)) = 1 := by
    rw [map_div, map_mul]
    show toMaximalOrder (lift (x * y)) / (toMaximalOrder (lift x) * toMaximalOrder (lift y)) = 1
    rw [toMaximalOrder_lift, toMaximalOrder_lift, toMaximalOrder_lift, div_self']
  have hpow := kernel_pow hker
  rw [div_zpow, div_eq_one, mul_zpow] at hpow
  exact hpow

def fromClDeltaKHom (cs : CLHSMq) (E : Euclid) : Forms cs.clDeltaK E →* Forms cs.clDelta E :=
  MonoidHom.mk' fromClDeltaKToClDelta fromClDeltaKToClDelta_mul

theorem toMaximalOrder_fromClDeltaK (x : Forms cs.clDeltaK E) :
    toMaximalOrder (fromClDeltaKToClDelta x) = x ^ cs.M := by
  have hpow := map_zpow (toMaximalOrderHom cs E) (lift x) cs.M
  rw [show toMaximalOrderHom cs E (lift x) = x from toMaximalOrder_lift x] at hpow
  exact hpow

theorem powerOfF_kernel (hsmall : cs.largeMessageVariant = false) (m : ℤ) :
    toMaximalOrder (powerOfFElt hsmall E m) = 1 := by
  rw [toMaximalOrder_eq_one_iff]
  show cs.suborder.extendClass (cs.powerOfF m) = 1
  by_cases hm : (cs.q : ℤ) ∣ m
  · rw [powerOfF_zero hm]
    have hone := (toMaximalOrder_eq_one_iff (1 : Forms cs.clDelta E)).mp
      (map_one (toMaximalOrderHom cs E))
    exact hone
  · obtain ⟨L, hform, hL, -, -⟩ := powerOfF_unit hm
    rw [hform]
    exact cs.suborder.extendClass_conductorForm cs.prime_q_int dvd_deltaK hL

theorem exists_powerOfF (hsmall : cs.largeMessageVariant = false) {x : Forms cs.clDelta E}
    (hx : toMaximalOrder x = 1) : ∃ m, x = powerOfFElt hsmall E m := by
  obtain ⟨m, hm⟩ := kernel_class hx
  exact ⟨m, Forms.toClass_injective hm⟩

theorem toMaximalOrderHom_surjective : Function.Surjective (toMaximalOrderHom cs E) :=
  fun x => ⟨lift x, toMaximalOrder_lift x⟩

theorem ker_toMaximalOrderHom (hsmall : cs.largeMessageVariant = false) :
    (toMaximalOrderHom cs E).ker = Subgroup.zpowers (generator hsmall E) := by
  ext x
  rw [MonoidHom.mem_ker, Subgroup.mem_zpowers_iff]
  constructor
  · intro hx
    obtain ⟨m, rfl⟩ := exists_powerOfF hsmall hx
    exact ⟨m, (powerOfFElt_eq hsmall m).symm⟩
  · rintro ⟨m, rfl⟩
    rw [← powerOfFElt_eq]
    exact powerOfF_kernel hsmall m

/-- The smallest message space, with a maximal order of class number two. -/
def params51 : CLHSMq where
  q := 3
  p := 17
  prime_q := Nat.prime_three
  prime_p := Or.inr (by norm_num)
  residue := rfl
  nonsquare := by
    rw [kronecker, if_neg (by norm_num)]
    norm_num

/-- The forms that the maximal order does not tell from one are the messages. -/
theorem mem_ker_iff (hsmall : cs.largeMessageVariant = false) (x : Forms cs.clDelta E) :
    toMaximalOrder x = 1 ↔ ∃ m : ℤ, 0 ≤ m ∧ m < cs.q ∧ x.form = cs.powerOfF m := by
  constructor
  · intro hx
    obtain ⟨m, rfl⟩ := exists_powerOfF hsmall hx
    have hform : (powerOfFElt hsmall E m).form = cs.powerOfF m := rfl
    have hmod : cs.powerOfF m = cs.powerOfF (m % cs.q) := by
      apply powerOfF_congr
      rw [Int.emod_def]
      exact ⟨-(m / cs.q), by ring⟩
    exact ⟨m % cs.q, Int.emod_nonneg m cs.q_pos.ne', Int.emod_lt_of_pos m cs.q_pos, hform.trans hmod⟩
  · rintro ⟨m, -, -, hform⟩
    have heq : x = powerOfFElt hsmall E m := Forms.ext_form hform
    rw [heq]
    exact powerOfF_kernel hsmall m

/-- On the messages the logarithm is the inverse of the closed form. -/
theorem kernel_iff (hsmall : cs.largeMessageVariant = false) (x : Forms cs.clDelta E) :
    toMaximalOrder x = 1 ↔
      ∃ m : ℤ, 0 ≤ m ∧ m < cs.q ∧ x.form = cs.powerOfF m ∧ cs.dlogInF x.form = .ok m := by
  rw [mem_ker_iff hsmall]
  constructor
  · rintro ⟨m, hlow, hhigh, hform⟩
    refine ⟨m, hlow, hhigh, hform, ?_⟩
    rw [hform, dlogInF_powerOfF, Int.emod_eq_of_lt hlow hhigh]
  · rintro ⟨m, hlow, hhigh, hform, -⟩
    exact ⟨m, hlow, hhigh, hform⟩

/-- The message 2. -/
def message51 : Forms params51.clDelta ClassGroup.idleEuclid :=
  powerOfFElt (by decide) ClassGroup.idleEuclid 2

theorem kernel_iff_params51 : message51.form = ⟨9, -3, 13⟩ ∧
    params51.dlogInF message51.form = .ok 2 ∧ toMaximalOrder message51 = 1 := by
  have hlog : params51.dlogInF message51.form = .ok 2 := by decide +kernel
  refine ⟨by decide +kernel, hlog, ?_⟩
  exact (kernel_iff (by decide) message51).mpr ⟨2, by decide, by decide, rfl, hlog⟩

/-- The class number of the order is `q` times that of the maximal order, and the kernel of the
way to it are the messages. -/
theorem classNumber_delta (hsmall : cs.largeMessageVariant = false) :
    Finite (Forms cs.clDelta E) ∧ Finite (Forms cs.clDeltaK E) ∧
      Nat.card (Forms cs.clDelta E) = cs.q * Nat.card (Forms cs.clDeltaK E) ∧
      Function.Surjective (toMaximalOrderHom cs E) ∧
      ∀ x, x ∈ (toMaximalOrderHom cs E).ker ↔
        ∃ m : ℤ, 0 ≤ m ∧ m < cs.q ∧ x.form = cs.powerOfF m := by
  have hsurjective : Function.Surjective (toMaximalOrderHom cs E) := toMaximalOrderHom_surjective
  refine ⟨Forms.finite _ E, Forms.finite _ E, ?_, hsurjective, mem_ker_iff hsmall⟩
  have hquotient := Nat.card_congr
    (QuotientGroup.quotientKerEquivOfSurjective _ hsurjective).toEquiv
  have hkernel : Nat.card (toMaximalOrderHom cs E).ker = cs.q := by
    rw [ker_toMaximalOrderHom hsmall, Nat.card_zpowers, orderOf_generator]
  rw [Subgroup.card_eq_card_quotient_mul_card_subgroup (toMaximalOrderHom cs E).ker, hkernel,
    hquotient, mul_comm]

theorem classNumber_delta_params51 :
    Finite (Forms params51.clDelta ClassGroup.idleEuclid) ∧
      Finite (Forms params51.clDeltaK ClassGroup.idleEuclid) ∧
      Nat.card (Forms params51.clDelta ClassGroup.idleEuclid) =
        3 * Nat.card (Forms params51.clDeltaK ClassGroup.idleEuclid) ∧
      Function.Surjective (toMaximalOrderHom params51 ClassGroup.idleEuclid) ∧
      ∀ x, x ∈ (toMaximalOrderHom params51 ClassGroup.idleEuclid).ker ↔
        ∃ m : ℤ, 0 ≤ m ∧ m < 3 ∧ x.form = params51.powerOfF m :=
  classNumber_delta (by decide)

end CLHSMq

end RfClassGroups.Bicycl
