import RfClassGroups.HomomorphicEval
import RfClassGroups.NupowPrecomp
import RfClassGroups.PrimeForm

/-! The cryptosystem over computed reduced forms. It meets what the abstract parameters ask
for, so that whatever holds of the abstract cryptosystem holds of the forms. -/

open ExceptList

namespace RfClassGroups.Bicycl

namespace CLHSMq

variable {cs : CLHSMq} {E : Euclid}

/-- The logarithm of a form outside the subgroup is a number like any other. -/
theorem dlogInF_total (x : Forms cs.clDelta E) : ∃ m, cs.dlogInF x.form = .ok m := by
  by_cases hone : x.form.isOne = true
  · exact ⟨0, by rw [dlogInF, if_pos hone]; rfl⟩
  · have hb : x.form.b ≠ 0 := by
      intro h0
      have hpar := BinaryForm.b_parity x.proper.disc
      have hD : cs.clDelta.discriminant % 2 = 1 := cs.suborder.constants.1
      rw [h0, hD] at hpar
      omega
    have hq2 : (2 : ℤ) ≤ cs.q := by exact_mod_cast cs.prime_q.two_le
    obtain ⟨j, u, hrun, -, hu⟩ := remove_spec hq2 hb
    obtain ⟨c, hc⟩ := modInverse_of_not_dvd cs.prime_q hu
    refine ⟨c, ?_⟩
    rw [dlogInF, if_neg hone, hrun]
    exact hc

end CLHSMq

/-- The cryptosystem with `k = 1`, outside the large message variant. The bound on the class
number comes from a floating-point product and is a parameter. The exponentiations by `M` can
count its bits. -/
structure Setup where
  params : CLHSMq
  small : params.largeMessageVariant = false
  fits : FitsInt params.M
  compactVariant : Bool
  classNumberBound : ℕ
  distance : ℕ
  two_le_distance : 2 ≤ distance

namespace Setup

def exponentBound (S : Setup) : ℕ := S.classNumberBound * 2 ^ (S.distance - 2)

variable (S : Setup) (E : Euclid)

abbrev GK : Type := Forms S.params.clDeltaK E

abbrev GD : Type := Forms S.params.clDelta E

def h : RfClassGroups.QFI (S.GK E) (S.GD E) :=
  if S.compactVariant then .deltaK (S.params.hDeltaK E) else .delta (S.params.hDelta E)

/-- The forms as an instance of the abstract cryptosystem. -/
def scheme : RfClassGroups.CLHSMqk (S.GK E) (S.GD E) where
  q := S.params.q
  prime_q := S.params.prime_q
  compactVariant := S.compactVariant
  h := S.h E
  discriminant_h := by
    unfold h
    cases S.compactVariant <;> rfl
  f := CLHSMq.generator S.small E
  orderOf_f := CLHSMq.orderOf_generator S.small
  dlog x := (S.params.dlogInF x.form).toOption.getD 0
  dlog_pow m hm := by
    have hform : (CLHSMq.generator S.small E ^ m).form = S.params.powerOfF m := by
      rw [← zpow_natCast, ← CLHSMq.powerOfFElt_eq]
      rfl
    rw [hform, CLHSMq.dlogInF_powerOfF, Int.emod_eq_of_lt (by positivity) (by exact_mod_cast hm)]
    rfl
  lift := S.params.fromClDeltaKHom E
  secretkeyBound := S.exponentBound

/-- The closed form of `power_of_f` is the power that the abstract cryptosystem takes. -/
theorem powerOfF_eq (m : ℤ) :
    (S.scheme E).powerOfF m = .delta (CLHSMq.powerOfFElt S.small E m) := by
  rw [CLHSMq.powerOfFElt_eq]
  rfl

/-- Exponentiation with the powers that `QFIPrecomp` holds. -/
def combPower {cl : ClassGroup} (x : Forms cl E) (n : Mpz) : Except String (Forms cl E) :=
  match nupowPrecomp (cl.ops E) x n (QFIPrecomp.of (cl.ops E) x (nbits S.exponentBound)) with
  | some y => return Forms.of E y
  | none => throw "index out of the table"

theorem combPower_eq {cl : ClassGroup} (x : Forms cl E) {n : ℕ} (hfits : FitsInt n) :
    S.combPower E x n = .ok (x ^ n) := by
  have hpre := QFIPrecomp.valid_of (cl.ops_lawful E) x (show 1 ≤ nbits S.exponentBound from
    Nat.le_add_left 1 _)
  obtain ⟨y, hy, hclass⟩ := nupowPrecomp_spec (cl.ops_lawful E) hpre (Int.natCast_nonneg n) hfits
  have heq : Forms.of E y = x ^ n := by
    apply Forms.toClass_injective
    rw [← zpow_natCast, Forms.toClass_zpow]
    exact hclass
  rw [combPower, hy, ← heq]
  rfl

def combPowerG (x : RfClassGroups.QFI (S.GK E) (S.GD E)) (n : Mpz) :
    Except String (RfClassGroups.QFI (S.GK E) (S.GD E)) :=
  match S.compactVariant, x with
  | true, .deltaK x => return .deltaK (← S.combPower E x n)
  | false, .delta x => return .delta (← S.combPower E x n)
  | _, _ => throw "power outside the class group"

/-- The precomputed powers of `h`, and those of a public key. -/
def combPowers : FixedPowers (S.GK E) (S.GD E) where
  powerOfH := S.combPowerG E (S.h E)
  exponentiation pk := S.combPowerG E pk.elt

theorem powers_plainView (hc : S.compactVariant = false) :
    ((S.scheme E).plainView hc).Powers (S.combPowers E) where
  powerOfH n hfits := by
    have hh : S.h E = .delta (S.scheme E).base := ((S.scheme E).plainView hc).h_eq
    simp only [combPowers, combPowerG, hh, hc, combPower_eq S E _ hfits]
    rfl
  exponentiation x n hfits := by
    simp only [combPowers, combPowerG, CLHSMqk.plainView, hc, combPower_eq S E _ hfits]
    rfl

theorem powers_compactView (hc : S.compactVariant = true) :
    ((S.scheme E).compactView hc).Powers (S.combPowers E) where
  powerOfH n hfits := by
    have hh : S.h E = .deltaK (S.scheme E).baseK := ((S.scheme E).compactView hc).h_eq
    simp only [combPowers, combPowerG, hh, hc, combPower_eq S E _ hfits]
    rfl
  exponentiation x n hfits := by
    simp only [combPowers, combPowerG, CLHSMqk.compactView, hc, combPower_eq S E _ hfits]
    rfl

def setup51 : Setup where
  params := CLHSMq.params51
  small := rfl
  fits := Nat.le_of_ble_eq_true rfl
  compactVariant := true
  classNumberBound := 8
  distance := 3
  two_le_distance := Nat.le_succ 2

/-- A circuit with every operation, of the value `2 * 4 + (2 + 1) * -1 * 5`. -/
def circuit51 : CLHSMqk.Circuit (setup51.scheme ClassGroup.idleEuclid) :=
  .addscalCiphertexts (.scalCiphertexts (.fresh ⟨2, by decide⟩ 5) 4 6)
    (.cmult (.addCiphertexts (.fresh ⟨2, by decide⟩ 7) (.add (.fresh ⟨1, by decide⟩ 3)
      (.fresh ⟨0, by decide⟩ 9)) 2) (-1)) 5 11

end Setup

end RfClassGroups.Bicycl
