import RfClassGroups.FormGroup
import RfClassGroups.Lib.ConductorForm
import RfClassGroups.SqrtModPrime

/-! The parameters of the cryptosystem with `k = 1`, and the subgroup of messages: `f^m` in
closed form and the logarithm that reads `m` off the form. -/

open BinaryForm ExceptList

namespace RfClassGroups.Bicycl

/-- `mpz_remove`: the factor is divided out as long as it divides. -/
def remove (n f : Mpz) : Option (ℕ × Mpz) :=
  WhileLoop.run (fun s => s.2 ≠ 0 && s.2 % f == 0) (fun s => (s.1 + 1, s.2 / f)) n.natAbs (0, n)

/-- What the checks of the constructor leave, with `k = 1`. -/
structure CLHSMq where
  q : ℕ
  p : ℕ
  prime_q : q.Prime
  prime_p : p = 1 ∨ p.Prime
  residue : -(p * q : ℤ) % 4 = 1
  nonsquare : kronecker q p = -1

namespace CLHSMq

def deltaK (cs : CLHSMq) : Mpz := -(cs.p * cs.q : ℤ)

def delta (cs : CLHSMq) : Mpz := cs.q * cs.q * cs.deltaK

def M (cs : CLHSMq) : Mpz := cs.q

def largeMessageVariant (cs : CLHSMq) : Bool := decide (0 < 4 * (cs.M * cs.M) - 1 + cs.deltaK)

variable (cs : CLHSMq)

theorem q_pos : (0 : ℤ) < cs.q := by exact_mod_cast cs.prime_q.pos

theorem p_pos : (0 : ℤ) < cs.p := by
  rcases cs.prime_p with h | h
  · rw [h]
    exact one_pos
  · exact_mod_cast h.pos

theorem prime_q_int : Prime (cs.q : ℤ) := Nat.prime_iff_prime_int.mp cs.prime_q

theorem deltaK_neg : cs.deltaK < 0 := neg_lt_zero.mpr (mul_pos cs.p_pos cs.q_pos)

theorem delta_neg : cs.delta < 0 := mul_neg_of_pos_of_neg (mul_pos cs.q_pos cs.q_pos) cs.deltaK_neg

theorem q_odd : (cs.q : ℤ) % 2 = 1 := by
  have hres := cs.residue
  by_contra h
  obtain ⟨k, hk⟩ : (2 : ℤ) ∣ cs.q := by omega
  rw [hk, show -((cs.p : ℤ) * (2 * k)) = 2 * -(cs.p * k) by ring] at hres
  omega

theorem delta_residue : cs.delta % 4 = 1 := by
  have hq := cs.q_odd
  have hsquare : (cs.q * cs.q : ℤ) % 4 = 1 := by
    obtain ⟨k, hk⟩ : ∃ k : ℤ, (cs.q : ℤ) = 2 * k + 1 := ⟨cs.q / 2, by omega⟩
    rw [hk, show (2 * k + 1) * (2 * k + 1) = 4 * (k * k + k) + 1 by ring]
    omega
  show (cs.q * cs.q * -(cs.p * cs.q : ℤ)) % 4 = 1
  rw [Int.mul_emod, hsquare, cs.residue]
  rfl

def clDeltaK : ClassGroup := ⟨cs.deltaK, cs.deltaK_neg, Or.inr cs.residue⟩

def clDelta : ClassGroup := ⟨cs.delta, cs.delta_neg, Or.inr cs.delta_residue⟩

/-- `CL_HSMqk::power_of_f` for `k = 1`. -/
def powerOfF (m : Mpz) : QFI :=
  match modInverse m cs.q with
  | .ok c =>
    let c := if c % 2 = 0 then c - cs.q else c
    ⟨cs.q * cs.q, c * cs.q, (c * c - cs.deltaK) / 4⟩
  | .error _ => cs.clDelta.one

/-- `CL_HSMqk::dlog_in_F` for `k = 1`, outside the large message variant. -/
def dlogInF (fm : QFI) : Except String Mpz :=
  if fm.isOne then return 0
  else do
    let some (_, u) := remove fm.b cs.q | throw "out of rounds"
    modInverse u cs.M

end CLHSMq

theorem remove_spec {f : ℤ} (hf : 2 ≤ f) {n : ℤ} (hn : n ≠ 0) :
    ∃ j u, remove n f = some (j, u) ∧ n = f ^ j * u ∧ ¬ f ∣ u := by
  let Inv : ℕ × ℤ → Prop := fun s => n = f ^ s.1 * s.2 ∧ s.2 ≠ 0
  have hstep : ∀ s : ℕ × ℤ, Inv s → (s.2 ≠ 0 && s.2 % f == 0) = true →
      Inv (s.1 + 1, s.2 / f) ∧ (s.2 / f).natAbs < s.2.natAbs := by
    intro s hs hguard
    obtain ⟨hprod, hne⟩ := hs
    simp only [Bool.and_eq_true, decide_eq_true_eq, beq_iff_eq] at hguard
    obtain ⟨k, hk⟩ := Int.dvd_of_emod_eq_zero hguard.2
    have hdiv : s.2 / f = k := by rw [hk, Int.mul_ediv_cancel_left _ (by omega)]
    have hk0 : k ≠ 0 := by
      rintro rfl
      exact hne (by rw [hk, mul_zero])
    refine ⟨⟨?_, by rwa [hdiv]⟩, ?_⟩
    · rw [hdiv, pow_succ, hprod, hk]
      ring
    · rw [hdiv, hk, Int.natAbs_mul]
      have hf' : 2 ≤ f.natAbs := by omega
      have hpos := Int.natAbs_pos.mpr hk0
      nlinarith
  obtain ⟨⟨j, u⟩, hrun, hinv, hexit⟩ := WhileLoop.run_terminates (fun s : ℕ × ℤ => s.2.natAbs) hstep
    (s := (0, n)) (show Inv (0, n) from ⟨by simp, hn⟩) le_rfl
  refine ⟨j, u, hrun, hinv.1, fun hdvd => ?_⟩
  have hu : (u ≠ 0 && u % f == 0) = true := by
    simp [Int.emod_eq_zero_of_dvd hdvd, show u ≠ 0 from hinv.2]
  exact Bool.false_ne_true (hexit.symm.trans hu)

/-- A factor that stands in front once is removed once. -/
theorem remove_mul {f : ℤ} (hf : 2 ≤ f) {L : ℤ} (hL : ¬ f ∣ L) : remove (L * f) f = some (1, L) := by
  have hne : L * f ≠ 0 := mul_ne_zero (fun h => hL (h ▸ dvd_zero f)) (by omega)
  obtain ⟨j, u, hrun, hprod, hu⟩ := remove_spec hf hne
  rcases j with _ | _ | j
  · rw [pow_zero, one_mul] at hprod
    exact absurd (hprod ▸ dvd_mul_left f L) hu
  · have hLu : L = u := by
      apply mul_right_cancel₀ (show f ≠ 0 by omega)
      rw [hprod]
      ring
    rw [hrun, hLu]
  · refine absurd ⟨f ^ j * u, ?_⟩ hL
    apply mul_right_cancel₀ (show f ≠ 0 by omega)
    rw [hprod]
    ring

theorem modInverse_dvd {q : ℕ} (hq : 0 < q) {m c : ℤ} (h : modInverse m q = .ok c) :
    (q : ℤ) ∣ c * m - 1 ∧ 0 ≤ c ∧ c < q := by
  have hq' : (0 : ℤ) < q := by exact_mod_cast hq
  have hmul := modInverse_mul h
  refine ⟨?_, ?_⟩
  · apply (ZMod.intCast_zmod_eq_zero_iff_dvd _ q).mp
    push_cast
    rw [mul_comm, hmul, sub_self]
  · rw [(modInverse_eq_ok h).2]
    exact ⟨Int.emod_nonneg _ hq'.ne', Int.emod_lt_of_pos _ hq'⟩

theorem modInverse_of_dvd {q : ℕ} (hq : q.Prime) {m : ℤ} (h : (q : ℤ) ∣ m) :
    ∃ e, modInverse m q = .error e :=
  modInverse_zero_error hq.one_lt ((ZMod.intCast_zmod_eq_zero_iff_dvd m q).mpr h)

theorem modInverse_of_not_dvd {q : ℕ} (hq : q.Prime) {m : ℤ} (h : ¬ (q : ℤ) ∣ m) :
    ∃ c : ℤ, modInverse m q = .ok c :=
  modInverse_exists hq (mt (ZMod.intCast_zmod_eq_zero_iff_dvd m q).mp h)

/-- The inverse that is found is the only one in the range. -/
theorem modInverse_unique {q : ℕ} (hq : q.Prime) {m c : ℤ} (hc : (q : ℤ) ∣ c * m - 1) (h0 : 0 ≤ c)
    (hlt : c < q) : modInverse m q = .ok c := by
  have hunit : ¬ (q : ℤ) ∣ m := by
    intro h
    exact (Nat.prime_iff_prime_int.mp hq).not_dvd_one ((dvd_sub_right (h.mul_left c)).mp hc)
  obtain ⟨c', hc'⟩ := modInverse_of_not_dvd hq hunit
  obtain ⟨hdvd, h0', hlt'⟩ := modInverse_dvd hq.pos hc'
  have hsame : (q : ℤ) ∣ c' - c := by
    have hmul : (q : ℤ) ∣ (c' - c) * m := by
      have hsum : (c' - c) * m = c' * m - 1 - (c * m - 1) := by ring
      rw [hsum]
      exact dvd_sub hdvd hc
    exact ((Nat.prime_iff_prime_int.mp hq).dvd_or_dvd hmul).resolve_right hunit
  have heq : c' - c = 0 := by
    apply Int.eq_zero_of_abs_lt_dvd hsame
    rw [abs_lt]
    omega
  rw [hc', sub_eq_zero.mp heq]

namespace CLHSMq

variable {cs : CLHSMq}

/-- The name `L(m)` of a message that `q` does not divide. -/
theorem powerOfF_unit {m : ℤ} (hm : ¬ (cs.q : ℤ) ∣ m) :
    ∃ L, cs.powerOfF m = conductorForm cs.q cs.deltaK L ∧ OddInverse cs.q m L ∧ -cs.q < L ∧
      L < cs.q := by
  obtain ⟨c, hc⟩ := modInverse_of_not_dvd cs.prime_q hm
  obtain ⟨hdvd, h0, hlt⟩ := modInverse_dvd cs.prime_q.pos hc
  have hodd := cs.q_odd
  have hpos := cs.q_pos
  refine ⟨if c % 2 = 0 then c - cs.q else c, ?_, ⟨?_, ?_⟩, ?_, ?_⟩
  · rw [powerOfF, hc]
    rfl
  · split <;> omega
  · split
    · have hsum : (c - cs.q) * m - 1 = c * m - 1 - cs.q * m := by ring
      rw [hsum]
      exact dvd_sub hdvd (dvd_mul_right _ m)
    · exact hdvd
  · split
    · -- zero has no inverse
      have hne : c ≠ 0 := by
        rintro rfl
        rw [zero_mul, zero_sub, dvd_neg] at hdvd
        exact cs.prime_q_int.not_dvd_one hdvd
      omega
    · omega
  · split <;> omega

theorem powerOfF_zero {m : ℤ} (hm : (cs.q : ℤ) ∣ m) : cs.powerOfF m = cs.clDelta.one := by
  obtain ⟨e, he⟩ := modInverse_of_dvd cs.prime_q hm
  rw [powerOfF, he]

theorem dvd_deltaK : (cs.q : ℤ) ∣ cs.deltaK := ⟨-cs.p, by rw [deltaK]; ring⟩

theorem deltaK_residue : cs.deltaK % 4 = 1 := cs.residue

/-- Of the powers of `f` the logarithm is the exponent modulo `q`. -/
theorem dlogInF_powerOfF (m : ℤ) : cs.dlogInF (cs.powerOfF m) = .ok (m % cs.q) := by
  have hpos := cs.q_pos
  by_cases hm : (cs.q : ℤ) ∣ m
  · rw [powerOfF_zero hm, Int.emod_eq_zero_of_dvd hm]
    rfl
  · obtain ⟨L, hform, hL, -, -⟩ := powerOfF_unit hm
    have hq2 : (2 : ℤ) ≤ cs.q := by exact_mod_cast cs.prime_q.two_le
    have hone : QFI.isOne (conductorForm cs.q cs.deltaK L) = false := by
      have hne : (cs.q * cs.q : ℤ) ≠ 1 := by nlinarith
      simpa [QFI.isOne, conductorForm] using hne
    rw [hform, dlogInF, hone]
    have hremove : remove (conductorForm cs.q cs.deltaK L).b cs.q = some (1, L) :=
      remove_mul hq2 (hL.not_dvd cs.prime_q_int)
    simp only [hremove, Bool.false_eq_true, if_false]
    apply modInverse_unique cs.prime_q
    · obtain ⟨k, hk⟩ := hL.inverse
      refine ⟨k - m / cs.q * L, ?_⟩
      have hmod := Int.mul_ediv_add_emod m cs.q
      linear_combination hk + L * hmod
    · exact Int.emod_nonneg m hpos.ne'
    · exact Int.emod_lt_of_pos m hpos

theorem powerOfF_proper (m : ℤ) : (cs.powerOfF m).Proper cs.clDelta.discriminant := by
  by_cases hm : (cs.q : ℤ) ∣ m
  · rw [powerOfF_zero hm]
    exact cs.clDelta.one_spec.1
  · obtain ⟨L, hform, hL, -, -⟩ := powerOfF_unit hm
    rw [hform]
    exact conductorForm_proper cs.prime_q_int cs.q_pos dvd_deltaK deltaK_residue rfl hL

theorem not_largeMessage (hsmall : cs.largeMessageVariant = false) :
    4 * (cs.q * cs.q : ℤ) ≤ 1 - cs.deltaK := by
  have h : ¬ 0 < 4 * (cs.q * cs.q : ℤ) - 1 + cs.deltaK := of_decide_eq_false hsmall
  linarith

/-- Outside the large message variant the closed form is reduced as it stands. -/
theorem powerOfF_reduced (hsmall : cs.largeMessageVariant = false) (m : ℤ) :
    (cs.powerOfF m).Reduced := by
  by_cases hm : (cs.q : ℤ) ∣ m
  · rw [powerOfF_zero hm]
    exact cs.clDelta.one_spec.2
  · obtain ⟨L, hform, hL, hlow, hhigh⟩ := powerOfF_unit hm
    have hbound := not_largeMessage hsmall
    have hpos := cs.q_pos
    have hc : 4 * ((L * L - cs.deltaK) / 4) = L * L - cs.deltaK :=
      conductorForm_c deltaK_residue hL.odd
    have hL2 : 1 ≤ L * L := by
      have hne : L ≠ 0 := by
        rintro rfl
        exact absurd hL.odd (by decide)
      have hsq := mul_self_pos.mpr hne
      linarith
    rw [hform]
    refine ⟨?_, ?_, ?_, ?_⟩
    · show -(cs.q * cs.q : ℤ) < L * cs.q
      nlinarith
    · show L * cs.q ≤ (cs.q * cs.q : ℤ)
      nlinarith
    · show (cs.q * cs.q : ℤ) ≤ (L * L - cs.deltaK) / 4
      linarith
    · -- the outer coefficients differ, as `q` does not divide the last one
      intro heq
      have heq' : (cs.q * cs.q : ℤ) = (L * L - cs.deltaK) / 4 := heq
      have hdvd : (cs.q : ℤ) ∣ L * L := by
        have hsum : L * L = cs.q * (4 * cs.q) + cs.deltaK := by linarith
        rw [hsum]
        exact dvd_add (dvd_mul_right _ _) dvd_deltaK
      rcases cs.prime_q_int.dvd_or_dvd hdvd with h | h <;>
        exact absurd h (hL.not_dvd cs.prime_q_int)

def powerOfFElt (hsmall : cs.largeMessageVariant = false) (E : Euclid) (m : ℤ) :
    Forms cs.clDelta E :=
  Forms.of E ⟨cs.powerOfF m, powerOfF_proper m, powerOfF_reduced hsmall m⟩

/-- The closed form depends on the residue of the message only. -/
theorem powerOfF_congr {m m' : ℤ} (h : (cs.q : ℤ) ∣ m' - m) : cs.powerOfF m = cs.powerOfF m' := by
  by_cases hm : (cs.q : ℤ) ∣ m
  · rw [powerOfF_zero hm, powerOfF_zero ((dvd_sub_left hm).mp h)]
  · obtain ⟨c, hc⟩ := modInverse_of_not_dvd cs.prime_q hm
    obtain ⟨hdvd, h0, hlt⟩ := modInverse_dvd cs.prime_q.pos hc
    have hsum : c * m' - 1 = c * (m' - m) + (c * m - 1) := by ring
    have hc' := modInverse_unique cs.prime_q (hsum ▸ dvd_add (h.mul_left c) hdvd) h0 hlt
    rw [powerOfF, powerOfF, hc, hc']

theorem classOf_powerOfF_add (m m' : ℤ) :
    classOf cs.clDelta.discriminant (cs.powerOfF (m + m')) =
      classOf cs.clDelta.discriminant (cs.powerOfF m) *
        classOf cs.clDelta.discriminant (cs.powerOfF m') := by
  by_cases hm : (cs.q : ℤ) ∣ m
  · have hsame : cs.powerOfF m' = cs.powerOfF (m + m') := powerOfF_congr (by simpa using hm)
    rw [powerOfF_zero hm, cs.clDelta.classOf_one, one_mul, hsame]
  by_cases hm' : (cs.q : ℤ) ∣ m'
  · have hsame : cs.powerOfF m = cs.powerOfF (m + m') := powerOfF_congr (by simpa using hm')
    rw [powerOfF_zero hm', cs.clDelta.classOf_one, mul_one, hsame]
  obtain ⟨L, hform, hL, -, -⟩ := powerOfF_unit hm
  obtain ⟨L', hform', hL', -, -⟩ := powerOfF_unit hm'
  by_cases hsum : (cs.q : ℤ) ∣ m + m'
  · rw [powerOfF_zero hsum, cs.clDelta.classOf_one, hform, hform']
    exact (classOf_conductorForm_neg (D := cs.clDelta.discriminant) cs.prime_q_int cs.q_pos cs.q_odd dvd_deltaK
      deltaK_residue rfl hL hL' hsum).symm
  · obtain ⟨L'', hform'', hL'', -, -⟩ := powerOfF_unit hsum
    rw [hform, hform', hform'']
    exact classOf_conductorForm_add (D := cs.clDelta.discriminant) cs.prime_q_int cs.q_pos cs.q_odd dvd_deltaK
      deltaK_residue rfl hL hL' hL''

/-- The homomorphism from the messages to the classes. -/
noncomputable def powerOfFClass (cs : CLHSMq) :
    Multiplicative ℤ →* FormClass cs.clDelta.discriminant :=
  MonoidHom.mk' (fun m => classOf cs.clDelta.discriminant (cs.powerOfF m.toAdd))
    fun m m' => classOf_powerOfF_add m.toAdd m'.toAdd

variable {E : Euclid}

/-- The homomorphism from the messages to the reduced forms. -/
def powerOfFHom (hsmall : cs.largeMessageVariant = false) (E : Euclid) :
    Multiplicative ℤ →* Forms cs.clDelta E :=
  MonoidHom.mk' (fun m => powerOfFElt hsmall E m.toAdd) fun m m' =>
    Forms.toClass_injective (by
      rw [Forms.toClass_mul]
      exact classOf_powerOfF_add m.toAdd m'.toAdd)

def generator (hsmall : cs.largeMessageVariant = false) (E : Euclid) : Forms cs.clDelta E :=
  powerOfFElt hsmall E 1

/-- The closed form is the power of the form of the message one. -/
theorem powerOfFElt_eq (hsmall : cs.largeMessageVariant = false) (m : ℤ) :
    powerOfFElt hsmall E m = generator hsmall E ^ m :=
  MonoidHom.apply_mint _ (powerOfFHom hsmall E) (Multiplicative.ofAdd m)

theorem generator_zpow_eq_one (hsmall : cs.largeMessageVariant = false) (m : ℤ) :
    generator hsmall E ^ m = 1 ↔ (cs.q : ℤ) ∣ m := by
  rw [← powerOfFElt_eq]
  constructor
  · intro h
    by_contra hm
    obtain ⟨L, hform, -, -, -⟩ := powerOfF_unit hm
    have ha : (cs.powerOfF m).a = cs.clDelta.one.a := congrArg (fun x : Forms cs.clDelta E => x.form.a) h
    rw [hform] at ha
    have hq2 : (2 : ℤ) ≤ cs.q := by exact_mod_cast cs.prime_q.two_le
    have hne : (cs.q * cs.q : ℤ) ≠ 1 := by nlinarith
    exact hne ha
  · intro hm
    exact Forms.ext_form (powerOfF_zero hm)

theorem orderOf_generator (hsmall : cs.largeMessageVariant = false) :
    orderOf (generator hsmall E) = cs.q := by
  apply Nat.dvd_antisymm
  · apply orderOf_dvd_of_pow_eq_one
    rw [← zpow_natCast, generator_zpow_eq_one]
  · have h : generator hsmall E ^ (orderOf (generator hsmall E) : ℤ) = 1 := by
      rw [zpow_natCast, pow_orderOf_eq_one]
    exact Int.natCast_dvd_natCast.mp ((generator_zpow_eq_one hsmall _).mp h)

end CLHSMq

end RfClassGroups.Bicycl
