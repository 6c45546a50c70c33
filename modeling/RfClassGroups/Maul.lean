import RfClassGroups.ClassGroup

/-! The operations of the scheme wrapper and the key-changing operations of the
firewalls, and what they do to a ciphertext of the abstract scheme. -/

open ExceptList

namespace RfClassGroups

variable {GK GD : Type} [CommGroup GK] [CommGroup GD]

def cgAdd (cs : CLHSMqk GK GD) (c1 c2 : CipherText GK GD) : Except String (CipherText GK GD) := do
  let r1 ← cs.clG.nucomp c1.c1 c2.c1
  let r2 ← ClassGroup.delta.nucomp c1.c2 c2.c2
  return ⟨r1, r2⟩

def cgCmult (cs : CLHSMqk GK GD) (c : CipherText GK GD) (alpha : Mpz) :
    Except String (CipherText GK GD) := do
  let r1 ← cs.clG.nupow c.c1 alpha
  let r2 ← ClassGroup.delta.nupow c.c2 alpha
  return ⟨r1, r2⟩

def encryptPlain (cs : CLHSMqk GK GD) (pk : PublicKey GK GD) (value r : Mpz) :
    Except String (CipherText GK GD) := do
  let m ← cs.clearText value
  cs.encrypt pk m r

/-! The key-changing operations of the firewalls. -/

def maulPk (cs : CLHSMqk GK GD) (pk : PublicKey GK GD) (rMaul : Mpz) :
    Except String (PublicKey GK GD) := do
  let hPowR ← cs.powerOfH rMaul
  let newElt ← cs.clG.nucomp pk.elt hPowR
  cs.publicKey newElt

structure EncZero (GK GD : Type) where
  R : QFI GK GD
  E : QFI GK GD

/-- The pair `(h^s, pk^s)` of a firewall. -/
def makeEncZeroPair (cs : CLHSMqk GK GD) (pk : PublicKey GK GD) (s : Mpz) :
    Except String (EncZero GK GD) := do
  let R ← cs.powerOfH s
  let E ← cs.exponentiation pk s
  return ⟨R, E⟩

/-- The forward and the inverse firewall step differ in how the power of `c1`
enters `c2`. -/
def maulRerand (cs : CLHSMqk GK GD)
    (comp : QFI GK GD → QFI GK GD → Except String (QFI GK GD)) (ct : CipherText GK GD)
    (rMaul : Mpz) (pre : EncZero GK GD) : Except String (CipherText GK GD) := do
  let rPowR ← cs.clG.nupow ct.c1 rMaul
  let rPowR ← cs.liftCompact rPowR
  let outC1 ← cs.clG.nucomp ct.c1 pre.R
  let c2 ← comp ct.c2 rPowR
  let outC2 ← ClassGroup.delta.nucomp c2 pre.E
  return ⟨outC1, outC2⟩

def maulFwdRerand (cs : CLHSMqk GK GD) (ct : CipherText GK GD) (rMaul : Mpz)
    (pre : EncZero GK GD) : Except String (CipherText GK GD) :=
  maulRerand cs ClassGroup.delta.nucomp ct rMaul pre

def maulInvRerand (cs : CLHSMqk GK GD) (ct : CipherText GK GD) (rMaul : Mpz)
    (pre : EncZero GK GD) : Except String (CipherText GK GD) :=
  maulRerand cs ClassGroup.delta.nucompinv ct rMaul pre

section

variable {cs : CLHSMqk GK GD} (hc : cs.compactVariant = false) (K : GD)
include hc

open CLHSMqk

theorem cgAdd_eq (m m' r r' : ℤ) :
    cgAdd cs (cs.cipher K m r) (cs.cipher K m' r') = .ok (cs.cipher K (m + m') (r + r')) := by
  have hmul := ElGamal.enc_mul cs.base cs.f K m m' r r'
  simp only [cgAdd, clG_eq hc, cipher, ClassGroup.nucomp, pure_eq_ok, ok_bind, ← hmul, Prod.fst_mul,
    Prod.snd_mul]

theorem cgCmult_eq (m r a : ℤ) :
    cgCmult cs (cs.cipher K m r) a = .ok (cs.cipher K (m * a) (r * a)) := by
  have hpow := ElGamal.enc_zpow cs.base cs.f K m r a
  simp only [cgCmult, clG_eq hc, cipher, ClassGroup.nupow, pure_eq_ok, ok_bind, ← hpow, Prod.pow_fst,
    Prod.pow_snd]

theorem encryptPlain_eq {v : Mpz} (hv : 0 ≤ v ∧ v < cs.cleartextBound) (r : Mpz) :
    encryptPlain cs ⟨.delta K⟩ v r = .ok (cs.cipher K v r) := by
  rw [encryptPlain, clearText_eq hv, ok_bind, encrypt_eq hc]

theorem maulPk_eq (ρ : Mpz) :
    maulPk cs ⟨.delta K⟩ ρ = .ok ⟨.delta (K * cs.base ^ ρ)⟩ := by
  simp only [maulPk, powerOfH_eq hc, ok_bind, clG_eq hc, ClassGroup.nucomp, pure_eq_ok,
    publicKey_eq hc]

theorem makeEncZeroPair_eq (s : Mpz) :
    makeEncZeroPair cs ⟨.delta K⟩ s = .ok ⟨.delta (cs.base ^ s), .delta (K ^ s)⟩ := by
  rw [makeEncZeroPair, powerOfH_eq hc, ok_bind, exponentiation_eq hc]
  rfl

/-- A forward step under the outgoing key keeps the message, changes the key
and adds its scalar to the randomness. -/
theorem maulFwdRerand_eq (m r ρ s : ℤ) :
    maulFwdRerand cs (cs.cipher K m r) ρ
      ⟨.delta (cs.base ^ s), .delta ((K * cs.base ^ ρ) ^ s)⟩ =
      .ok (cs.cipher (K * cs.base ^ ρ) m (r + s)) := by
  have hshift := ElGamal.shift_enc cs.base cs.f K m r ρ
  have hmul := ElGamal.enc_mul cs.base cs.f (K * cs.base ^ ρ) m 0 r s
  simp only [maulFwdRerand, maulRerand, clG_eq hc, cipher, ClassGroup.nupow, ClassGroup.nucomp,
    pure_eq_ok, ok_bind, liftCompact_eq hc]
  rw [add_zero, ← hshift] at hmul
  rw [← hmul]
  simp [ElGamal.shift, ElGamal.enc]

theorem maulInvRerand_eq (m r ρ s : ℤ) :
    maulInvRerand cs (cs.cipher (K * cs.base ^ ρ) m r) ρ
      ⟨.delta (cs.base ^ s), .delta (K ^ s)⟩ = .ok (cs.cipher K m (r + s)) := by
  have hshift := ElGamal.shift_enc_neg cs.base cs.f K m r ρ
  have hmul := ElGamal.enc_mul cs.base cs.f K m 0 r s
  simp only [maulInvRerand, maulRerand, clG_eq hc, cipher, ClassGroup.nupow, ClassGroup.nucomp,
    ClassGroup.nucompinv, pure_eq_ok, ok_bind, liftCompact_eq hc]
  rw [add_zero, ← hshift] at hmul
  rw [← hmul]
  simp [ElGamal.shift, ElGamal.enc, div_eq_mul_inv]

end

end RfClassGroups
