import RfClassGroups.MaximalOrder

/-! The generator `h`: the square of the smallest prime form, raised to the power `M`, and
moved to the maximal order in the compact variant. -/

open BinaryForm

namespace RfClassGroups.Bicycl

namespace ClassGroup

/-- `ClassGroup::primeform`, for a prime `l` modulo which the discriminant is a square. -/
def primeform (cl : ClassGroup) (l : ℕ) : Option QFI :=
  ((sqrtModPrime cl.discriminant l).bind Except.toOption).map fun b =>
    let b := if b % 2 ≠ cl.discriminant % 2 then l - b else b
    QFI.reduction (QFI.setCFromDisc ⟨l, b, 0⟩ cl.discriminant)

/-- A root of the discriminant modulo a prime that is not one of its divisors gives a form. -/
theorem proper_of_root {cl : ClassGroup} {l : ℕ} (hl : l.Prime) {b : ℤ}
    (hdvd : 4 * (l : ℤ) ∣ b * b - cl.discriminant)
    (hunit : ¬ ((l : ℤ) ∣ b ∧ (l : ℤ) ∣ cl.discriminant)) :
    (QFI.setCFromDisc ⟨l, b, 0⟩ cl.discriminant).Proper cl.discriminant := by
  obtain ⟨c, hc⟩ := hdvd
  have hl0 : (0 : ℤ) < l := by exact_mod_cast hl.pos
  rw [QFI.setCFromDisc_eq hl0.ne' hc]
  refine ⟨hl0, ?_, ?_⟩
  · simp only [disc]
    linarith
  · by_contra hne
    obtain ⟨r, hr, hcontent⟩ := Nat.exists_prime_and_dvd hne
    obtain ⟨hra, hrb, hrc⟩ := (BinaryForm.dvd_content_iff _ r).mp hcontent
    have hrl : r = l := (Nat.prime_dvd_prime_iff_eq hr hl).mp (Int.natCast_dvd_natCast.mp hra)
    subst hrl
    refine hunit ⟨hrb, ?_⟩
    have hsum : cl.discriminant = b * b - 4 * r * c := by linarith
    rw [hsum]
    exact dvd_sub (hrb.mul_right b) ⟨4 * c, by ring⟩

theorem kronecker_two {d : ℤ} (hres : d % 4 = 0 ∨ d % 4 = 1) (h : kronecker d 2 = 1) :
    d % 8 = 1 := by
  rw [kronecker, if_pos rfl, ZMod.χ₈_int_eq_if_mod_eight] at h
  split at h
  · cases h
  · split at h
    · omega
    · cases h

theorem kronecker_unit {d : ℤ} (hres : d % 4 = 0 ∨ d % 4 = 1) {l : ℕ} (hl : l.Prime)
    (h : kronecker d l = 1) : ¬ (l : ℤ) ∣ d ∧ IsSquare (d : ZMod l) := by
  have hfact : Fact l.Prime := ⟨hl⟩
  by_cases h2 : l = 2
  · subst h2
    have hd := kronecker_two hres h
    exact ⟨by omega, zmod_two_isSquare d⟩
  · rw [kronecker_odd h2] at h
    have hne : (d : ZMod l) ≠ 0 := by
      intro h0
      rw [(legendreSym.eq_zero_iff l d).mpr h0] at h
      exact zero_ne_one h
    exact ⟨mt (ZMod.intCast_zmod_eq_zero_iff_dvd d l).mpr hne, (legendreSym.eq_one_iff l hne).mp h⟩

/-- Squares of numbers of the right parity agree with the discriminant modulo four. -/
theorem four_dvd_of_parity {d b : ℤ} (hres : d % 4 = 0 ∨ d % 4 = 1) (hparity : b % 2 = d % 2) :
    4 ∣ b * b - d := by
  obtain ⟨k, hk⟩ : ∃ k, b = 2 * k + b % 2 := ⟨b / 2, by omega⟩
  rcases Int.emod_two_eq_zero_or_one b with h | h
  · rw [h] at hk
    have hsquare : b * b = 4 * (k * k) := by rw [hk]; ring
    omega
  · rw [h] at hk
    have hsquare : b * b = 4 * (k * k + k) + 1 := by rw [hk]; ring
    omega

theorem eight_dvd_of_odd {d b : ℤ} (hd : d % 8 = 1) (hb : b % 2 = 1) : 8 ∣ b * b - d := by
  obtain ⟨k, hk⟩ : ∃ k, b = 2 * k + 1 := ⟨b / 2, by omega⟩
  obtain ⟨j, hj⟩ : ∃ j, k * (k + 1) = 2 * j := by
    obtain ⟨j, hj⟩ := Int.even_mul_succ_self k
    exact ⟨j, by omega⟩
  have hsquare : b * b = 8 * j + 1 := by
    rw [hk]
    linear_combination 4 * hj
  omega

/-- The root whose parity is that of the discriminant. -/
def matchParity (b d : ℤ) (l : ℕ) : ℤ := if b % 2 ≠ d % 2 then l - b else b

theorem matchParity_spec {d b : ℤ} (hres : d % 4 = 0 ∨ d % 4 = 1) {l : ℕ} (hl : l.Prime)
    (h : kronecker d l = 1) (hdvd : (l : ℤ) ∣ b * b - d) :
    4 * (l : ℤ) ∣ matchParity b d l * matchParity b d l - d := by
  by_cases h2 : l = 2
  · subst h2
    have hd := kronecker_two hres h
    have hodd : b % 2 = 1 := by
      rcases Int.emod_two_eq_zero_or_one b with h0 | h1
      · obtain ⟨k, hk⟩ : ∃ k, b = 2 * k := ⟨b / 2, by omega⟩
        obtain ⟨e, he⟩ := hdvd
        rw [hk] at he
        have hsum : d = 2 * (2 * (k * k) - e) := by
          push_cast at he
          linarith
        omega
      · exact h1
    rw [matchParity, if_neg (by omega)]
    exact eight_dvd_of_odd hd hodd
  · have hodd := hl.eq_two_or_odd.resolve_left h2
    have hparity : matchParity b d l % 2 = d % 2 := by
      unfold matchParity
      split <;> omega
    have hsquare : (l : ℤ) ∣ matchParity b d l * matchParity b d l - d := by
      unfold matchParity
      split
      · have hsum : (l - b) * (l - b) - d = l * (l - 2 * b) + (b * b - d) := by ring
        rw [hsum]
        exact dvd_add (dvd_mul_right _ _) hdvd
      · exact hdvd
    have hcop : IsCoprime (4 : ℤ) l := by
      obtain ⟨k, hk⟩ : ∃ k, l = 2 * k + 1 := ⟨l / 2, by omega⟩
      exact ⟨-k * k - k, l, by rw [hk]; push_cast; ring⟩
    exact hcop.mul_dvd (four_dvd_of_parity hres hparity) hsquare

theorem primeform_spec (cl : ClassGroup) {l : ℕ} (hl : l.Prime)
    (h : kronecker cl.discriminant l = 1) :
    ∃ f, cl.primeform l = some f ∧ f.Proper cl.discriminant ∧ f.Reduced := by
  have hfact : Fact l.Prime := ⟨hl⟩
  obtain ⟨hunit, hsquare⟩ := kronecker_unit cl.residue hl h
  obtain ⟨b, hb, hrange, hroot⟩ := sqrtModPrime_spec hsquare
  have hdvd : (l : ℤ) ∣ b * b - cl.discriminant := by
    apply (ZMod.intCast_zmod_eq_zero_iff_dvd _ l).mp
    push_cast
    rw [hroot, sub_self]
  have hproper := proper_of_root hl (matchParity_spec cl.residue hl h hdvd) fun hboth => hunit hboth.2
  obtain ⟨hp, hr, -⟩ := reduction_elt hproper
  refine ⟨_, ?_, hp, hr⟩
  rw [primeform, hb]
  rfl

/-- The prime divisors of `1 - 4 D` have the symbol one. -/
theorem exists_split_of_neg {D : ℤ} (hneg : D < 0) (hD : D % 4 = 1) :
    ∃ l : ℕ, l.Prime ∧ kronecker D l = 1 := by
  obtain ⟨l, hl, hdvd⟩ := Nat.exists_prime_and_dvd (n := (1 - 4 * D).toNat) (by omega)
  have hfact : Fact l.Prime := ⟨hl⟩
  have hdvd' : (l : ℤ) ∣ 1 - 4 * D := by
    have hcast := Int.natCast_dvd_natCast.mpr hdvd
    rwa [Int.toNat_of_nonneg (by omega)] at hcast
  have h2 : l ≠ 2 := by
    rintro rfl
    omega
  have hroot : (D : ZMod l) = (2 * D : ZMod l) * (2 * D) := by
    have hzero := (ZMod.intCast_zmod_eq_zero_iff_dvd _ l).mpr hdvd'
    push_cast at hzero
    linear_combination (D : ZMod l) * hzero
  have hne : (D : ZMod l) ≠ 0 := by
    intro h0
    have hzero := (ZMod.intCast_zmod_eq_zero_iff_dvd _ l).mpr hdvd'
    push_cast at hzero
    rw [h0, mul_zero, sub_zero] at hzero
    exact one_ne_zero hzero
  refine ⟨l, hl, ?_⟩
  rw [kronecker_odd h2, legendreSym.eq_one_iff l hne]
  exact ⟨2 * D, hroot⟩

end ClassGroup

namespace CLHSMq

variable (cs : CLHSMq)

theorem exists_split : ∃ l : ℕ, l.Prime ∧ kronecker cs.delta l = 1 :=
  ClassGroup.exists_split_of_neg cs.delta_neg cs.delta_residue

/-- `for ( ; Delta().kronecker (l) != 1; l.nextprime ())`, from two. -/
def splitPrime : ℕ := Nat.find cs.exists_split

theorem primeform_splitPrime : ∃ f, cs.clDelta.primeform cs.splitPrime = some f ∧
    f.Proper cs.clDelta.discriminant ∧ f.Reduced :=
  ClassGroup.primeform_spec cs.clDelta (Nat.find_spec cs.exists_split).1
    (Nat.find_spec cs.exists_split).2

def primeElt : cs.clDelta.Elt :=
  have h := cs.primeform_splitPrime
  have hsome : (cs.clDelta.primeform cs.splitPrime).isSome := by
    obtain ⟨f, hf, -⟩ := h
    rw [hf]
    rfl
  have hspec : ((cs.clDelta.primeform cs.splitPrime).get hsome).Proper cs.clDelta.discriminant ∧
      ((cs.clDelta.primeform cs.splitPrime).get hsome).Reduced := by
    obtain ⟨f, hf, hproper, hred⟩ := h
    simp only [hf, Option.get_some]
    exact ⟨hproper, hred⟩
  ⟨(cs.clDelta.primeform cs.splitPrime).get hsome, hspec.1, hspec.2⟩

/-- The generator of the non-compact variant. -/
def hDelta (E : Euclid) : Forms cs.clDelta E :=
  Forms.of E (ClassGroup.nuduplElt E cs.primeElt) ^ cs.M

/-- The generator of the compact variant. -/
def hDeltaK (E : Euclid) : Forms cs.clDeltaK E := toMaximalOrder (cs.hDelta E) ^ cs.M

theorem hDelta_square (E : Euclid) : ∃ g : Forms cs.clDelta E, cs.hDelta E = g * g := by
  refine ⟨Forms.of E cs.primeElt ^ cs.M, ?_⟩
  have hdupl : Forms.of E (ClassGroup.nuduplElt E cs.primeElt) =
      Forms.of E cs.primeElt * Forms.of E cs.primeElt := by
    apply Forms.toClass_injective
    rw [Forms.toClass_mul]
    exact ClassGroup.toClass_nudupl E cs.primeElt
  rw [hDelta, hdupl, mul_zpow]

end CLHSMq

end RfClassGroups.Bicycl
