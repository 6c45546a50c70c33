import RfClassGroups.Maul
import RfClassGroups.MpzBits

/-! The homomorphic operations on ciphertexts in both variants of the cryptosystem, and the
evaluation of a circuit of them. -/

open ExceptList

namespace RfClassGroups

open Bicycl (FitsInt)

variable {GK GD : Type} [CommGroup GK] [CommGroup GD]

/-- The two exponentiations with precomputed powers, of `h` and of a public key. -/
structure FixedPowers (GK GD : Type) where
  powerOfH : Mpz → Except String (QFI GK GD)
  exponentiation : PublicKey GK GD → Mpz → Except String (QFI GK GD)

namespace CLHSMqk

/-- The exponentiations without precomputed powers. -/
def plainPowers (cs : CLHSMqk GK GD) : FixedPowers GK GD := ⟨cs.powerOfH, cs.exponentiation⟩

section

variable (cs : CLHSMqk GK GD) (pw : FixedPowers GK GD)

def keygenWith (sk : cs.SecretKey) : Except String (PublicKey GK GD) := do
  let pk ← pw.powerOfH sk.1
  return ⟨pk⟩

def encryptWith (pk : PublicKey GK GD) (m : cs.ClearText) (r : Mpz) :
    Except String (CipherText GK GD) := do
  let c1 ← pw.powerOfH r
  let fm := cs.powerOfF m.1
  let c2 ← pw.exponentiation pk r
  let c2 ← cs.liftCompact c2
  let c2 ← ClassGroup.delta.nucomp c2 fm
  return ⟨c1, c2⟩

def addCiphertexts (pk : PublicKey GK GD) (ca cb : CipherText GK GD) (r : Mpz) :
    Except String (CipherText GK GD) := do
  let c1 ← pw.powerOfH r
  let c2 ← pw.exponentiation pk r
  let c2 ← cs.liftCompact c2
  let c2 ← ClassGroup.delta.nucomp c2 ca.c2
  let c2 ← ClassGroup.delta.nucomp c2 cb.c2
  let c1 ← cs.clG.nucomp c1 ca.c1
  let c1 ← cs.clG.nucomp c1 cb.c1
  return ⟨c1, c2⟩

def scalCiphertexts (pk : PublicKey GK GD) (c : CipherText GK GD) (s r : Mpz) :
    Except String (CipherText GK GD) := do
  let c1 ← pw.powerOfH r
  let c2 ← pw.exponentiation pk r
  let c2 ← cs.liftCompact c2
  let tmp ← ClassGroup.delta.nupow c.c2 s
  let c2 ← ClassGroup.delta.nucomp c2 tmp
  let tmp ← cs.clG.nupow c.c1 s
  let c1 ← cs.clG.nucomp c1 tmp
  return ⟨c1, c2⟩

def addscalCiphertexts (pk : PublicKey GK GD) (ca cb : CipherText GK GD) (s r : Mpz) :
    Except String (CipherText GK GD) := do
  let c1 ← pw.powerOfH r
  let c2 ← pw.exponentiation pk r
  let c2 ← cs.liftCompact c2
  let tmp ← cs.clG.nupow cb.c1 s
  let c1 ← cs.clG.nucomp c1 tmp
  let tmp ← ClassGroup.delta.nupow cb.c2 s
  let c2 ← ClassGroup.delta.nucomp c2 tmp
  let c1 ← cs.clG.nucomp c1 ca.c1
  let c2 ← ClassGroup.delta.nucomp c2 ca.c2
  return ⟨c1, c2⟩

def addCleartexts (ma mb : cs.ClearText) : Mpz := (ma.1 + mb.1) % cs.cleartextBound

def scalCleartexts (m : cs.ClearText) (s : Mpz) : Mpz := m.1 * s % cs.cleartextBound

end

/-- The operations that a party applies to ciphertexts under one public key: those of the
cryptosystem, with randomness, and those of the scheme wrapper, without. -/
inductive Circuit (cs : CLHSMqk GK GD)
  | fresh (m : cs.ClearText) (r : ℕ)
  | addCiphertexts (ca cb : Circuit cs) (r : ℕ)
  | scalCiphertexts (c : Circuit cs) (s : Mpz) (r : ℕ)
  | addscalCiphertexts (ca cb : Circuit cs) (s : Mpz) (r : ℕ)
  | add (ca cb : Circuit cs)
  | cmult (c : Circuit cs) (alpha : Mpz)

namespace Circuit

variable {cs : CLHSMqk GK GD}

def eval (pw : FixedPowers GK GD) (pk : PublicKey GK GD) :
    Circuit cs → Except String (CipherText GK GD)
  | fresh m r => cs.encryptWith pw pk m r
  | addCiphertexts ca cb r => do cs.addCiphertexts pw pk (← ca.eval pw pk) (← cb.eval pw pk) r
  | scalCiphertexts c s r => do cs.scalCiphertexts pw pk (← c.eval pw pk) s r
  | addscalCiphertexts ca cb s r => do
      cs.addscalCiphertexts pw pk (← ca.eval pw pk) (← cb.eval pw pk) s r
  | add ca cb => do cgAdd cs (← ca.eval pw pk) (← cb.eval pw pk)
  | cmult c alpha => do cgCmult cs (← c.eval pw pk) alpha

def value : Circuit cs → ℤ
  | fresh m _ => m.1
  | addCiphertexts ca cb _ => ca.value + cb.value
  | scalCiphertexts c s _ => c.value * s
  | addscalCiphertexts ca cb s _ => ca.value + cb.value * s
  | add ca cb => ca.value + cb.value
  | cmult c alpha => c.value * alpha

/-- The exponentiations can count the bits of every scalar and of all randomness. -/
def Fits : Circuit cs → Prop
  | fresh _ r => FitsInt r
  | addCiphertexts ca cb r => ca.Fits ∧ cb.Fits ∧ FitsInt r
  | scalCiphertexts c s r => c.Fits ∧ FitsInt s ∧ FitsInt r
  | addscalCiphertexts ca cb s r => ca.Fits ∧ cb.Fits ∧ FitsInt s ∧ FitsInt r
  | add ca cb => ca.Fits ∧ cb.Fits
  | cmult c alpha => c.Fits ∧ FitsInt alpha

end Circuit

/-- The group that the first components live in, and its way to the group of the second
ones. -/
structure View (cs : CLHSMqk GK GD) (G : Type) [CommGroup G] where
  inj : G → QFI GK GD
  down : G →* GD
  base : G
  h_eq : cs.h = inj base
  nupow : ∀ x n, cs.clG.nupow (inj x) n = .ok (inj (x ^ n))
  nucomp : ∀ x y, cs.clG.nucomp (inj x) (inj y) = .ok (inj (x * y))
  nucompinv : ∀ x y, cs.clG.nucompinv (inj x) (inj y) = .ok (inj (x / y))
  discriminant : ∀ x, (inj x).discriminant = some cs.clG
  liftCompact : ∀ x, cs.liftCompact (inj x) = .ok (.delta (down x))

def plainView (cs : CLHSMqk GK GD) (hc : cs.compactVariant = false) : View cs GD where
  inj := .delta
  down := MonoidHom.id GD
  base := cs.base
  h_eq := h_eq hc
  nupow x n := by
    rw [clG_eq hc]
    rfl
  nucomp x y := by
    rw [clG_eq hc]
    rfl
  nucompinv x y := by
    rw [clG_eq hc]
    rfl
  discriminant x := by
    rw [clG_eq hc]
    rfl
  liftCompact x := liftCompact_eq hc _

def baseK (cs : CLHSMqk GK GD) : GK :=
  match cs.h with
  | .deltaK x => x
  | _ => 1

def compactView (cs : CLHSMqk GK GD) (hc : cs.compactVariant = true) : View cs GK where
  inj := .deltaK
  down := cs.lift
  base := cs.baseK
  h_eq := by
    have hd := cs.discriminant_h
    rw [hc] at hd
    unfold baseK
    cases hh : cs.h with
    | unset => simp [hh, QFI.discriminant] at hd
    | deltaK x => rfl
    | delta x => simp [hh, QFI.discriminant] at hd
  nupow x n := by
    rw [clG, hc]
    rfl
  nucomp x y := by
    rw [clG, hc]
    rfl
  nucompinv x y := by
    rw [clG, hc]
    rfl
  discriminant x := by
    rw [clG, hc]
    rfl
  liftCompact x := by
    rw [liftCompact, hc]
    rfl

/-- The exponentiations return the powers, for the exponents whose bits they can count. -/
structure View.Powers {cs : CLHSMqk GK GD} {G : Type} [CommGroup G] (V : View cs G)
    (pw : FixedPowers GK GD) : Prop where
  powerOfH : ∀ n : ℕ, FitsInt n → pw.powerOfH n = .ok (V.inj (V.base ^ n))
  exponentiation : ∀ x (n : ℕ), FitsInt n → pw.exponentiation ⟨V.inj x⟩ n = .ok (V.inj (x ^ n))

theorem View.powers_plain {cs : CLHSMqk GK GD} {G : Type} [CommGroup G] (V : View cs G) :
    V.Powers cs.plainPowers where
  powerOfH n _ := by
    show cs.clG.nupow cs.h n = _
    rw [V.h_eq, V.nupow, zpow_natCast]
  exponentiation x n _ := by
    show cs.clG.nupow (V.inj x) n = _
    rw [V.nupow, zpow_natCast]

section

variable {cs : CLHSMqk GK GD} {G : Type} [CommGroup G] {V : View cs G} {pw : FixedPowers GK GD}

/-- The ciphertext encrypts `m` under the secret key. -/
def View.Encrypts (V : View cs G) (sk m : ℤ) (c : CipherText GK GD) : Prop :=
  ∃ x, c = ⟨V.inj x, .delta (cs.f ^ m * V.down x ^ sk)⟩

theorem decrypt_of_encrypts (sk : cs.SecretKey) {m : ℤ} {c : CipherText GK GD}
    (hc : V.Encrypts sk.1 m c) : cs.decrypt sk c = .ok (m % cs.q) := by
  obtain ⟨x, rfl⟩ := hc
  have hq : (0 : ℤ) < cs.q := by exact_mod_cast cs.prime_q.pos
  have hm : ((m % cs.q).toNat : ℤ) = m % cs.q := Int.toNat_of_nonneg (Int.emod_nonneg m hq.ne')
  have hf : cs.f ^ m = cs.f ^ (m % cs.q).toNat := by
    rw [← zpow_natCast, hm, ← cs.orderOf_f, zpow_mod_orderOf]
  have hdlog := cs.dlog_pow (m % cs.q).toNat
    (by exact_mod_cast hm.trans_lt (Int.emod_lt_of_pos m hq))
  simp only [decrypt, V.nupow, V.liftCompact, ok_bind, ClassGroup.nucompinv, pure_eq_ok, dlogInF,
    map_zpow, mul_div_cancel_right]
  rw [hf, hdlog, hm]

/-- What every operation adds: an encryption of zero. -/
theorem zero_eq (hpw : V.Powers pw) (sk : ℤ) {r : ℕ} (hr : FitsInt r) :
    pw.powerOfH r = .ok (V.inj (V.base ^ r)) ∧
      pw.exponentiation ⟨V.inj (V.base ^ sk)⟩ r = .ok (V.inj ((V.base ^ r) ^ sk)) := by
  refine ⟨hpw.powerOfH r hr, ?_⟩
  rw [hpw.exponentiation _ _ hr, ← zpow_natCast, ← zpow_natCast, ← zpow_mul, ← zpow_mul, mul_comm]

theorem delta_nucomp (x y : GD) :
    ClassGroup.delta.nucomp (.delta x : QFI GK GD) (.delta y) = .ok (.delta (x * y)) := rfl

theorem delta_nupow (x : GD) (n : Mpz) :
    ClassGroup.delta.nupow (.delta x : QFI GK GD) n = .ok (.delta (x ^ n)) := rfl

theorem encryptWith_spec (hpw : V.Powers pw) (sk : ℤ) (m : cs.ClearText) {r : ℕ} (hr : FitsInt r) :
    ∃ c, cs.encryptWith pw ⟨V.inj (V.base ^ sk)⟩ m r = .ok c ∧ V.Encrypts sk m.1 c := by
  obtain ⟨hh, he⟩ := zero_eq hpw sk hr
  refine ⟨_, ?_, V.base ^ r, rfl⟩
  simp only [encryptWith, hh, he, ok_bind, V.liftCompact, powerOfF, delta_nucomp, pure_eq_ok,
    map_zpow]
  rw [mul_comm]

theorem addCiphertexts_spec (hpw : V.Powers pw) {sk ma mb : ℤ} {ca cb : CipherText GK GD}
    (ha : V.Encrypts sk ma ca) (hb : V.Encrypts sk mb cb) {r : ℕ} (hr : FitsInt r) :
    ∃ c, cs.addCiphertexts pw ⟨V.inj (V.base ^ sk)⟩ ca cb r = .ok c ∧
      V.Encrypts sk (ma + mb) c := by
  obtain ⟨hh, he⟩ := zero_eq hpw sk hr
  obtain ⟨x, rfl⟩ := ha
  obtain ⟨y, rfl⟩ := hb
  refine ⟨_, ?_, V.base ^ r * x * y, rfl⟩
  simp only [addCiphertexts, hh, he, ok_bind, V.liftCompact, V.nucomp, delta_nucomp, pure_eq_ok,
    map_zpow, map_mul, mul_zpow, zpow_add]
  congr 3
  simp only [mul_comm, mul_left_comm, mul_assoc]

theorem scalCiphertexts_spec (hpw : V.Powers pw) {sk m : ℤ} {c : CipherText GK GD}
    (hc : V.Encrypts sk m c) (s : Mpz) {r : ℕ} (hr : FitsInt r) :
    ∃ c', cs.scalCiphertexts pw ⟨V.inj (V.base ^ sk)⟩ c s r = .ok c' ∧
      V.Encrypts sk (m * s) c' := by
  obtain ⟨hh, he⟩ := zero_eq hpw sk hr
  obtain ⟨x, rfl⟩ := hc
  refine ⟨_, ?_, V.base ^ r * x ^ s, rfl⟩
  simp only [scalCiphertexts, hh, he, ok_bind, V.liftCompact, V.nucomp, V.nupow, delta_nucomp,
    delta_nupow, pure_eq_ok, map_zpow, map_mul, mul_zpow, zpow_mul, zpow_comm _ s sk]
  congr 3
  simp only [mul_left_comm]

theorem addscalCiphertexts_spec (hpw : V.Powers pw) {sk ma mb : ℤ} {ca cb : CipherText GK GD}
    (ha : V.Encrypts sk ma ca) (hb : V.Encrypts sk mb cb) (s : Mpz) {r : ℕ} (hr : FitsInt r) :
    ∃ c, cs.addscalCiphertexts pw ⟨V.inj (V.base ^ sk)⟩ ca cb s r = .ok c ∧
      V.Encrypts sk (ma + mb * s) c := by
  obtain ⟨hh, he⟩ := zero_eq hpw sk hr
  obtain ⟨x, rfl⟩ := ha
  obtain ⟨y, rfl⟩ := hb
  refine ⟨_, ?_, V.base ^ r * y ^ s * x, rfl⟩
  simp only [addscalCiphertexts, hh, he, ok_bind, V.liftCompact, V.nucomp, V.nupow, delta_nucomp,
    delta_nupow, pure_eq_ok, map_zpow, map_mul, mul_zpow, zpow_add, zpow_mul, zpow_comm _ s sk]
  congr 3
  simp only [mul_comm, mul_left_comm, mul_assoc]

theorem cgAdd_spec {sk ma mb : ℤ} {ca cb : CipherText GK GD} (ha : V.Encrypts sk ma ca)
    (hb : V.Encrypts sk mb cb) : ∃ c, cgAdd cs ca cb = .ok c ∧ V.Encrypts sk (ma + mb) c := by
  obtain ⟨x, rfl⟩ := ha
  obtain ⟨y, rfl⟩ := hb
  refine ⟨_, ?_, x * y, rfl⟩
  simp only [cgAdd, V.nucomp, delta_nucomp, ok_bind, pure_eq_ok, map_mul, mul_zpow, zpow_add]
  congr 3
  simp only [mul_left_comm, mul_assoc]

theorem cgCmult_spec {sk m : ℤ} {c : CipherText GK GD} (hc : V.Encrypts sk m c) (alpha : Mpz) :
    ∃ c', cgCmult cs c alpha = .ok c' ∧ V.Encrypts sk (m * alpha) c' := by
  obtain ⟨x, rfl⟩ := hc
  refine ⟨_, ?_, x ^ alpha, rfl⟩
  simp only [cgCmult, V.nupow, delta_nupow, ok_bind, pure_eq_ok, map_zpow, mul_zpow, zpow_mul,
    zpow_comm _ alpha sk]

/-- Every circuit evaluates to an encryption of its value. -/
theorem Circuit.eval_spec (hpw : V.Powers pw) (sk : ℤ) {e : Circuit cs} (he : e.Fits) :
    ∃ c, e.eval pw ⟨V.inj (V.base ^ sk)⟩ = .ok c ∧ V.Encrypts sk e.value c := by
  induction e with
  | fresh m r => exact encryptWith_spec hpw sk m he
  | addCiphertexts ca cb r iha ihb =>
    obtain ⟨hca, hcb, hr⟩ := he
    obtain ⟨a, ha, hae⟩ := iha hca
    obtain ⟨b, hb, hbe⟩ := ihb hcb
    simp only [eval, ha, hb, ok_bind]
    exact addCiphertexts_spec hpw hae hbe hr
  | scalCiphertexts c s r ih =>
    obtain ⟨hc, -, hr⟩ := he
    obtain ⟨a, ha, hae⟩ := ih hc
    simp only [eval, ha, ok_bind]
    exact scalCiphertexts_spec hpw hae s hr
  | addscalCiphertexts ca cb s r iha ihb =>
    obtain ⟨hca, hcb, -, hr⟩ := he
    obtain ⟨a, ha, hae⟩ := iha hca
    obtain ⟨b, hb, hbe⟩ := ihb hcb
    simp only [eval, ha, hb, ok_bind]
    exact addscalCiphertexts_spec hpw hae hbe s hr
  | add ca cb iha ihb =>
    obtain ⟨a, ha, hae⟩ := iha he.1
    obtain ⟨b, hb, hbe⟩ := ihb he.2
    simp only [eval, ha, hb, ok_bind]
    exact cgAdd_spec hae hbe
  | cmult c alpha ih =>
    obtain ⟨a, ha, hae⟩ := ih he.1
    simp only [eval, ha, ok_bind]
    exact cgCmult_spec hae alpha

/-- Key generation, the evaluation and the decryption, one after the other. -/
def roundTrip (cs : CLHSMqk GK GD) (pw : FixedPowers GK GD) (sk : cs.SecretKey) (e : Circuit cs) :
    Except String Mpz := do
  let pk ← cs.keygenWith pw sk
  let c ← e.eval pw pk
  cs.decrypt sk c

theorem keygenWith_eq (hpw : V.Powers pw) (sk : cs.SecretKey) (hsk : FitsInt sk.1) :
    cs.keygenWith pw sk = .ok ⟨V.inj (V.base ^ sk.1)⟩ := by
  obtain ⟨n, hn⟩ := Int.eq_ofNat_of_zero_le sk.2.1
  rw [hn] at hsk
  rw [keygenWith, hn, hpw.powerOfH n hsk, zpow_natCast]
  rfl

theorem roundTrip_eq (hpw : V.Powers pw) (sk : cs.SecretKey) (hsk : FitsInt sk.1) {e : Circuit cs}
    (he : e.Fits) : cs.roundTrip pw sk e = .ok (e.value % cs.q) := by
  obtain ⟨c, hc, henc⟩ := e.eval_spec hpw sk.1 he
  rw [roundTrip, keygenWith_eq hpw sk hsk, ok_bind, hc, ok_bind, decrypt_of_encrypts sk henc]

/-- What a sum of two encryptions decrypts to is the sum of the cleartexts. -/
theorem roundTrip_addCiphertexts (hpw : V.Powers pw) (sk : cs.SecretKey) (hsk : FitsInt sk.1)
    (ma mb : cs.ClearText) {ra rb r : ℕ} (hra : FitsInt ra) (hrb : FitsInt rb) (hr : FitsInt r) :
    cs.roundTrip pw sk (.addCiphertexts (.fresh ma ra) (.fresh mb rb) r) =
      .ok (cs.addCleartexts ma mb) :=
  roundTrip_eq hpw sk hsk ⟨hra, hrb, hr⟩

theorem roundTrip_scalCiphertexts (hpw : V.Powers pw) (sk : cs.SecretKey) (hsk : FitsInt sk.1)
    (m : cs.ClearText) {s : Mpz} (hs : FitsInt s) {rm r : ℕ} (hrm : FitsInt rm) (hr : FitsInt r) :
    cs.roundTrip pw sk (.scalCiphertexts (.fresh m rm) s r) = .ok (cs.scalCleartexts m s) :=
  roundTrip_eq hpw sk hsk ⟨hrm, hs, hr⟩

end

end CLHSMqk

end RfClassGroups
