import Mathlib.GroupTheory.OrderOfElement
import RfClassGroups.Lib.ElGamal
import RfClassGroups.Lib.ExceptList
import RfClassGroups.Mpz

/-! The linearly homomorphic cryptosystem on class groups, over two abstract
groups in place of the class groups of the two discriminants. -/

open ExceptList

namespace RfClassGroups

inductive ClassGroup
  | deltaK
  | delta
  deriving DecidableEq

/-- A quadratic form. `unset` is the default-constructed form (1, 1, 1), whose
discriminant is neither of the two. -/
inductive QFI (GK GD : Type)
  | unset
  | deltaK (x : GK)
  | delta (x : GD)

section

variable {GK GD : Type} [CommGroup GK] [CommGroup GD]

def QFI.discriminant : QFI GK GD → Option ClassGroup
  | .unset => none
  | .deltaK _ => some .deltaK
  | .delta _ => some .delta

/-- Composition has no defined result on forms of another discriminant. -/
def ClassGroup.nucomp : ClassGroup → QFI GK GD → QFI GK GD → Except String (QFI GK GD)
  | .deltaK, .deltaK x, .deltaK y => return .deltaK (x * y)
  | .delta, .delta x, .delta y => return .delta (x * y)
  | _, _, _ => throw "composition outside the class group"

def ClassGroup.nucompinv : ClassGroup → QFI GK GD → QFI GK GD → Except String (QFI GK GD)
  | .deltaK, .deltaK x, .deltaK y => return .deltaK (x / y)
  | .delta, .delta x, .delta y => return .delta (x / y)
  | _, _, _ => throw "composition outside the class group"

def ClassGroup.nupow : ClassGroup → QFI GK GD → Mpz → Except String (QFI GK GD)
  | .deltaK, .deltaK x, n => return .deltaK (x ^ n)
  | .delta, .delta x, n => return .delta (x ^ n)
  | _, _, _ => throw "power outside the class group"

end

/-- The parameters with `k = 1`: `f` generates the subgroup of order `q` in which
`dlog` is the discrete logarithm, and `lift` maps the one group to the other. -/
structure CLHSMqk (GK GD : Type) [CommGroup GK] [CommGroup GD] where
  q : ℕ
  prime_q : q.Prime
  compactVariant : Bool
  h : QFI GK GD
  discriminant_h : h.discriminant = some (if compactVariant then .deltaK else .delta)
  f : GD
  orderOf_f : orderOf f = q
  dlog : GD → Mpz
  dlog_pow : ∀ m < q, dlog (f ^ m) = m
  lift : GK →* GD
  secretkeyBound : ℕ

section

variable {GK GD : Type} [CommGroup GK] [CommGroup GD]

namespace CLHSMqk

def clG (cs : CLHSMqk GK GD) : ClassGroup := if cs.compactVariant then .deltaK else .delta

def cleartextBound (cs : CLHSMqk GK GD) : Mpz := cs.q

def powerOfH (cs : CLHSMqk GK GD) (e : Mpz) : Except String (QFI GK GD) := cs.clG.nupow cs.h e

def powerOfF (cs : CLHSMqk GK GD) (m : Mpz) : QFI GK GD := .delta (cs.f ^ m)

def dlogInF (cs : CLHSMqk GK GD) : QFI GK GD → Except String Mpz
  | .delta x => return cs.dlog x
  | _ => throw "discrete logarithm outside the class group"

def fromClDeltaKToClDelta (cs : CLHSMqk GK GD) : QFI GK GD → Except String (QFI GK GD)
  | .deltaK x => return .delta (cs.lift x)
  | _ => throw "lift outside the class group"

def liftCompact (cs : CLHSMqk GK GD) (f : QFI GK GD) : Except String (QFI GK GD) :=
  if cs.compactVariant then cs.fromClDeltaKToClDelta f else return f

abbrev SecretKey (cs : CLHSMqk GK GD) := {v : Mpz // 0 ≤ v ∧ v < cs.secretkeyBound}

abbrev ClearText (cs : CLHSMqk GK GD) := {v : Mpz // 0 ≤ v ∧ v < cs.cleartextBound}

def secretKey (cs : CLHSMqk GK GD) (v : Mpz) : Except String cs.SecretKey :=
  if h : 0 ≤ v ∧ v < cs.secretkeyBound then return ⟨v, h⟩
  else throw "Secret key is negative or too large"

def clearText (cs : CLHSMqk GK GD) (v : Mpz) : Except String cs.ClearText :=
  if h : 0 ≤ v ∧ v < cs.cleartextBound then return ⟨v, h⟩
  else throw "Cleartext is negative or too large"

end CLHSMqk

structure PublicKey (GK GD : Type) where
  elt : QFI GK GD

structure CipherText (GK GD : Type) where
  c1 : QFI GK GD
  c2 : QFI GK GD

/-- The buffers of the protocol start with default-constructed ciphertexts. -/
instance : Inhabited (CipherText GK GD) := ⟨⟨.unset, .unset⟩⟩

namespace CLHSMqk

def publicKey (cs : CLHSMqk GK GD) (pk : QFI GK GD) : Except String (PublicKey GK GD) :=
  if pk.discriminant ≠ some cs.clG then
    throw "pk's discriminant does not match Cryptosystem"
  else return ⟨pk⟩

def keygenPk (cs : CLHSMqk GK GD) (sk : cs.SecretKey) : Except String (PublicKey GK GD) := do
  let pk ← cs.powerOfH sk.1
  return ⟨pk⟩

def exponentiation (cs : CLHSMqk GK GD) (pk : PublicKey GK GD) (n : Mpz) :
    Except String (QFI GK GD) := cs.clG.nupow pk.elt n

def encrypt (cs : CLHSMqk GK GD) (pk : PublicKey GK GD) (m : cs.ClearText) (r : Mpz) :
    Except String (CipherText GK GD) := do
  let c1 ← cs.powerOfH r
  let fm := cs.powerOfF m.1
  let c2 ← cs.exponentiation pk r
  let c2 ← cs.liftCompact c2
  let c2 ← ClassGroup.delta.nucomp c2 fm
  return ⟨c1, c2⟩

/-- The cleartext of a decryption is the logarithm, without a range check. -/
def decrypt (cs : CLHSMqk GK GD) (sk : cs.SecretKey) (c : CipherText GK GD) :
    Except String Mpz := do
  let fm ← cs.clG.nupow c.c1 sk.1
  let fm ← cs.liftCompact fm
  let fm ← ClassGroup.delta.nucompinv c.c2 fm
  cs.dlogInF fm

end CLHSMqk

/-! In the non-compact variant everything lies in the class group of `Delta`. -/

namespace CLHSMqk

def base (cs : CLHSMqk GK GD) : GD :=
  match cs.h with
  | .delta x => x
  | _ => 1

variable {cs : CLHSMqk GK GD}

theorem clG_eq (hc : cs.compactVariant = false) : cs.clG = .delta := by simp [clG, hc]

theorem h_eq (hc : cs.compactVariant = false) : cs.h = .delta cs.base := by
  have hd := cs.discriminant_h
  unfold base
  cases hh : cs.h with
  | unset => simp [hh, QFI.discriminant] at hd
  | deltaK x => simp [hh, hc, QFI.discriminant] at hd
  | delta x => rfl

theorem powerOfH_eq (hc : cs.compactVariant = false) (e : Mpz) :
    cs.powerOfH e = .ok (.delta (cs.base ^ e)) := by
  rw [powerOfH, clG_eq hc, h_eq hc]
  rfl

theorem liftCompact_eq (hc : cs.compactVariant = false) (f : QFI GK GD) :
    cs.liftCompact f = .ok f := by
  simp [liftCompact, hc]

theorem exponentiation_eq (hc : cs.compactVariant = false) (K : GD) (n : Mpz) :
    cs.exponentiation ⟨.delta K⟩ n = .ok (.delta (K ^ n)) := by
  rw [exponentiation, clG_eq hc]
  rfl

theorem publicKey_eq (hc : cs.compactVariant = false) (K : GD) :
    cs.publicKey (.delta K) = .ok ⟨.delta K⟩ := by
  rw [publicKey, clG_eq hc]
  rfl

theorem keygenPk_eq (hc : cs.compactVariant = false) (sk : cs.SecretKey) :
    cs.keygenPk sk = .ok ⟨.delta (cs.base ^ sk.1)⟩ := by
  rw [keygenPk, powerOfH_eq hc]
  rfl

theorem clearText_eq {v : Mpz} (hv : 0 ≤ v ∧ v < cs.cleartextBound) :
    cs.clearText v = .ok ⟨v, hv⟩ := dif_pos hv

def cipher (cs : CLHSMqk GK GD) (K : GD) (m r : ℤ) : CipherText GK GD :=
  ⟨.delta (ElGamal.enc cs.base cs.f K m r).1, .delta (ElGamal.enc cs.base cs.f K m r).2⟩

theorem cipher_ext {K K' : GD} {m m' r r' : ℤ}
    (h : ElGamal.enc cs.base cs.f K m r = ElGamal.enc cs.base cs.f K' m' r') :
    cs.cipher K m r = cs.cipher K' m' r' := by
  rw [cipher, cipher, h]

theorem encrypt_eq (hc : cs.compactVariant = false) (K : GD) (m : cs.ClearText) (r : Mpz) :
    cs.encrypt ⟨.delta K⟩ m r = .ok (cs.cipher K m.1 r) := by
  simp only [encrypt, powerOfH_eq hc, exponentiation_eq hc, liftCompact_eq hc, ok_bind, powerOfF,
    ClassGroup.nucomp, pure_eq_ok]
  rw [mul_comm]
  rfl

theorem decrypt_eq (hc : cs.compactVariant = false) (sk : cs.SecretKey) (m r : ℤ) :
    cs.decrypt sk (cs.cipher (cs.base ^ sk.1) m r) = .ok (m % cs.q) := by
  have hq : (0 : ℤ) < cs.q := by exact_mod_cast cs.prime_q.pos
  have hunmask := ElGamal.enc_unmask cs.base cs.f sk.1 m r
  simp only [decrypt, clG_eq hc, cipher, ClassGroup.nupow, pure_eq_ok, ok_bind, liftCompact_eq hc,
    ClassGroup.nucompinv, dlogInF]
  rw [ElGamal.unmask] at hunmask
  rw [hunmask]
  have hm : ((m % cs.q).toNat : ℤ) = m % cs.q := Int.toNat_of_nonneg (Int.emod_nonneg m hq.ne')
  have hf : cs.f ^ m = cs.f ^ (m % cs.q).toNat := by
    rw [← zpow_natCast, hm, ← cs.orderOf_f, zpow_mod_orderOf]
  rw [hf, cs.dlog_pow _ (by exact_mod_cast hm.trans_lt (Int.emod_lt_of_pos m hq)), hm]

end CLHSMqk

end

end RfClassGroups
