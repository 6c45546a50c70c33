import RfClassGroups.RfOle

/-! The key-changing operations one by one: the fused step of a firewall against
its two parts, and mauled secret keys against mauled ciphertexts. -/

open ExceptList

namespace RfClassGroups

variable {GK GD : Type} [CommGroup GK] [CommGroup GD]

def maulCt (cs : CLHSMqk GK GD) (comp : QFI GK GD → QFI GK GD → Except String (QFI GK GD))
    (ct : CipherText GK GD) (rMaul : Mpz) : Except String (CipherText GK GD) := do
  let rPowR ← cs.clG.nupow ct.c1 rMaul
  let rPowR ← cs.liftCompact rPowR
  let c2 ← comp ct.c2 rPowR
  return ⟨ct.c1, c2⟩

def maulCtForward (cs : CLHSMqk GK GD) (ct : CipherText GK GD) (rMaul : Mpz) :
    Except String (CipherText GK GD) := maulCt cs ClassGroup.delta.nucomp ct rMaul

def maulCtInverse (cs : CLHSMqk GK GD) (ct : CipherText GK GD) (rMaul : Mpz) :
    Except String (CipherText GK GD) := maulCt cs ClassGroup.delta.nucompinv ct rMaul

/-- `rerand` with the scalar that its encryption of zero draws. -/
def cgRerand (cs : CLHSMqk GK GD) (pk : PublicKey GK GD) (c : CipherText GK GD) (s : Mpz) :
    Except String (CipherText GK GD) := do
  let c0 ← encryptPlain cs pk 0 s
  cgAdd cs c c0

def maulSk (cs : CLHSMqk GK GD) (sk : cs.SecretKey) (r : Mpz) : Except String cs.SecretKey :=
  cs.secretKey ((sk.1 + r) % cs.secretkeyBound)

def CLHSMqk.unmask (cs : CLHSMqk GK GD) (e : Mpz) (c : CipherText GK GD) :
    Except String (QFI GK GD) := do
  let fm ← cs.clG.nupow c.c1 e
  let fm ← cs.liftCompact fm
  ClassGroup.delta.nucompinv c.c2 fm

theorem CLHSMqk.decrypt_eq_unmask (cs : CLHSMqk GK GD) (sk : cs.SecretKey) (c : CipherText GK GD) :
    cs.decrypt sk c = cs.unmask sk.1 c >>= cs.dlogInF := by
  simp only [CLHSMqk.decrypt, CLHSMqk.unmask, bind_assoc]

/-! Operations of one class group yield forms of that group. -/

theorem nupow_discriminant {g : ClassGroup} {x y : QFI GK GD} {n : Mpz}
    (h : g.nupow x n = .ok y) : y.discriminant = some g := by
  cases g <;> cases x <;> cases h <;> rfl

theorem nucomp_right_discriminant {g : ClassGroup} {x y z : QFI GK GD}
    (h : g.nucomp x y = .ok z) : y.discriminant = some g := by
  cases g <;> cases x <;> cases y <;> cases h <;> rfl

omit [CommGroup GK] [CommGroup GD] in
theorem discriminant_delta {x : QFI GK GD} (h : x.discriminant = some .delta) :
    ∃ K, x = .delta K := by
  cases x with
  | unset => cases h
  | deltaK x => cases h
  | delta x => exact ⟨x, rfl⟩

theorem makeEncZeroPair_discriminant {cs : CLHSMqk GK GD} {pk : PublicKey GK GD} {s : Mpz}
    {pre : EncZero GK GD} (h : makeEncZeroPair cs pk s = .ok pre) :
    pre.E.discriminant = some cs.clG := by
  obtain ⟨R, _, h⟩ := bind_eq_ok.mp h
  obtain ⟨E, hE, h⟩ := bind_eq_ok.mp h
  cases h
  exact nupow_discriminant hE

theorem maulRerand_discriminant {cs : CLHSMqk GK GD}
    {comp : QFI GK GD → QFI GK GD → Except String (QFI GK GD)} {ct out : CipherText GK GD}
    {r : Mpz} {pre : EncZero GK GD} (h : maulRerand cs comp ct r pre = .ok out) :
    pre.E.discriminant = some .delta := by
  obtain ⟨_, _, h⟩ := bind_eq_ok.mp h
  obtain ⟨_, _, h⟩ := bind_eq_ok.mp h
  obtain ⟨_, _, h⟩ := bind_eq_ok.mp h
  obtain ⟨_, _, h⟩ := bind_eq_ok.mp h
  obtain ⟨_, hout, _⟩ := bind_eq_ok.mp h
  exact nucomp_right_discriminant hout

/-- The fused steps succeed, agree with the operations they fuse, and leave the
plaintext under the key with exponent `e` and its shift. -/
def FusedIsSequential (cs : CLHSMqk GK GD) (pk : PublicKey GK GD) (ct : CipherText GK GD)
    (r s : Mpz) : Prop :=
  ∃ pk' fwd inv, maulPk cs pk r = .ok pk' ∧
    (makeEncZeroPair cs pk' s >>= maulFwdRerand cs ct r) = .ok fwd ∧
    (maulCtForward cs ct r >>= fun c => cgRerand cs pk' c s) = .ok fwd ∧
    (makeEncZeroPair cs pk s >>= maulInvRerand cs ct r) = .ok inv ∧
    (maulCtInverse cs ct r >>= fun c => cgRerand cs pk c s) = .ok inv ∧
    ∀ e, cs.powerOfH e = .ok pk.elt →
      (∃ m, cs.unmask e ct = .ok m ∧ cs.unmask (e + r) fwd = .ok m) ∧
      ∃ m, cs.unmask (e + r) ct = .ok m ∧ cs.unmask e inv = .ok m

section

variable {cs : CLHSMqk GK GD} (hc : cs.compactVariant = false)
include hc

open CLHSMqk

def pair (GK : Type) (c : GD × GD) : CipherText GK GD := ⟨.delta c.1, .delta c.2⟩

theorem unmask_eq (e : Mpz) (c : GD × GD) :
    cs.unmask e (pair GK c) = .ok (.delta (ElGamal.unmask c e)) := by
  simp only [CLHSMqk.unmask, pair, clG_eq hc, ClassGroup.nupow, pure_eq_ok, ok_bind,
    liftCompact_eq hc, ClassGroup.nucompinv]
  rfl

theorem maulCtForward_eq (c : GD × GD) (r : Mpz) :
    maulCtForward cs (pair GK c) r = .ok (pair GK (ElGamal.shift c r)) := by
  simp only [maulCtForward, maulCt, pair, clG_eq hc, ClassGroup.nupow, pure_eq_ok, ok_bind,
    liftCompact_eq hc, ClassGroup.nucomp, ElGamal.shift]

theorem maulCtInverse_eq (c : GD × GD) (r : Mpz) :
    maulCtInverse cs (pair GK c) r = .ok (pair GK (ElGamal.shift c (-r))) := by
  simp only [maulCtInverse, maulCt, pair, clG_eq hc, ClassGroup.nupow, pure_eq_ok, ok_bind,
    liftCompact_eq hc, ClassGroup.nucompinv, ElGamal.shift, div_eq_mul_inv, zpow_neg]

theorem cgRerand_eq (K : GD) (c : GD × GD) (s : Mpz) :
    cgRerand cs ⟨.delta K⟩ (pair GK c) s =
      .ok (pair GK (c * ElGamal.enc cs.base cs.f K 0 s)) := by
  have h0 : (0 : Mpz) ≤ 0 ∧ (0 : Mpz) < cs.cleartextBound :=
    ⟨le_rfl, Int.natCast_pos.mpr cs.prime_q.pos⟩
  rw [cgRerand, encryptPlain_eq hc K h0, ok_bind]
  simp only [cgAdd, pair, cipher, clG_eq hc, ClassGroup.nucomp, pure_eq_ok, ok_bind, Prod.fst_mul,
    Prod.snd_mul]

theorem maulFwdRerand_pair (K : GD) (c : GD × GD) (r s : Mpz) :
    (makeEncZeroPair cs ⟨.delta K⟩ s >>= maulFwdRerand cs (pair GK c) r) =
      .ok (pair GK (ElGamal.shift c r * ElGamal.enc cs.base cs.f K 0 s)) := by
  rw [makeEncZeroPair_eq hc, ok_bind]
  simp only [maulFwdRerand, maulRerand, pair, clG_eq hc, ClassGroup.nupow, ClassGroup.nucomp,
    pure_eq_ok, ok_bind, liftCompact_eq hc, ElGamal.shift, ElGamal.enc, zpow_zero, one_mul,
    Prod.mk_mul_mk]

theorem maulInvRerand_pair (K : GD) (c : GD × GD) (r s : Mpz) :
    (makeEncZeroPair cs ⟨.delta K⟩ s >>= maulInvRerand cs (pair GK c) r) =
      .ok (pair GK (ElGamal.shift c (-r) * ElGamal.enc cs.base cs.f K 0 s)) := by
  rw [makeEncZeroPair_eq hc, ok_bind]
  simp only [maulInvRerand, maulRerand, pair, clG_eq hc, ClassGroup.nupow, ClassGroup.nucomp,
    ClassGroup.nucompinv, pure_eq_ok, ok_bind, liftCompact_eq hc, ElGamal.shift, ElGamal.enc,
    zpow_zero, one_mul, Prod.mk_mul_mk, div_eq_mul_inv, zpow_neg]

theorem fusedIsSequential (K : GD) (c : GD × GD) (r s : Mpz) :
    FusedIsSequential cs ⟨.delta K⟩ (pair GK c) r s := by
  refine ⟨⟨.delta (K * cs.base ^ r)⟩, _, _, maulPk_eq hc K r, maulFwdRerand_pair hc _ c r s, ?_,
    maulInvRerand_pair hc K c r s, ?_, fun e he => ?_⟩
  · rw [maulCtForward_eq hc, ok_bind, cgRerand_eq hc]
  · rw [maulCtInverse_eq hc, ok_bind, cgRerand_eq hc]
  · rw [powerOfH_eq hc, Except.ok.injEq, QFI.delta.injEq] at he
    subst he
    refine ⟨⟨_, unmask_eq hc e c, ?_⟩, ⟨_, unmask_eq hc (e + r) c, ?_⟩⟩
    · rw [unmask_eq hc, ElGamal.unmask_mul, ElGamal.unmask_shift, ← zpow_add, ElGamal.enc_unmask,
        zpow_zero, mul_one]
    · have hshift := ElGamal.unmask_shift c (e + r) (-r)
      rw [add_neg_cancel_right] at hshift
      rw [unmask_eq hc, ElGamal.unmask_mul, hshift, ElGamal.enc_unmask, zpow_zero, mul_one]

end

/-- The fused steps are the sequential ones in the non-compact variant and only
there: `make_enc_zero_pair` leaves the power of the key in the class group of
`Delta_K`, and the library lifts its own. -/
theorem fusedIsSequential_iff (cs : CLHSMqk GK GD) {pk : PublicKey GK GD} {ct : CipherText GK GD}
    (hpk : pk.elt.discriminant = some cs.clG) (hc1 : ct.c1.discriminant = some cs.clG)
    (hc2 : ct.c2.discriminant = some .delta) (r s : Mpz) :
    FusedIsSequential cs pk ct r s ↔ cs.compactVariant = false := by
  constructor
  · rintro ⟨pk', fwd, inv, -, hfused, -⟩
    obtain ⟨pre, hpre, hfwd⟩ := bind_eq_ok.mp hfused
    have hE := makeEncZeroPair_discriminant hpre
    rw [maulRerand_discriminant hfwd, CLHSMqk.clG] at hE
    by_cases hc : cs.compactVariant = true
    · rw [if_pos hc] at hE
      cases hE
    · exact Bool.eq_false_of_not_eq_true hc
  · intro hc
    rw [CLHSMqk.clG_eq hc] at hpk hc1
    obtain ⟨K, hK⟩ := discriminant_delta hpk
    obtain ⟨x, hx⟩ := discriminant_delta hc1
    obtain ⟨y, hy⟩ := discriminant_delta hc2
    cases pk
    cases ct
    cases hK
    cases hx
    cases hy
    exact fusedIsSequential hc K (x, y) r s

theorem fusedIsSequential_iff_small :
    FusedIsSequential smallScheme ⟨.delta (.ofAdd (0, 2))⟩
        ⟨.delta (.ofAdd (1, 2)), .delta (.ofAdd (3, 1))⟩ 7 2 ↔
      smallScheme.compactVariant = false :=
  fusedIsSequential_iff smallScheme rfl rfl rfl 7 2

theorem prime_small : smallScheme.q.Prime := smallScheme.prime_q

theorem discriminant_small : smallScheme.h.discriminant = some .delta := rfl

theorem orderOf_small : orderOf smallScheme.f = smallScheme.q := smallScheme.orderOf_f

theorem dlog_pow_small : ∀ m < smallScheme.q, smallScheme.dlog (smallScheme.f ^ m) = m :=
  smallScheme.dlog_pow

def compactScheme : CLHSMqk (Multiplicative (ZMod 3)) (Multiplicative (ZMod 5 × ZMod 3)) where
  q := smallScheme.q
  prime_q := prime_small
  compactVariant := true
  h := .deltaK (.ofAdd 1)
  discriminant_h := rfl
  f := smallScheme.f
  orderOf_f := orderOf_small
  dlog := smallScheme.dlog
  dlog_pow := dlog_pow_small
  lift := AddMonoidHom.toMultiplicative (AddMonoidHom.inr (ZMod 5) (ZMod 3))
  secretkeyBound := 12

/-- In the compact variant the two-part form returns a ciphertext and the fused
one composes across the class groups. -/
theorem fusedIsSequential_compact :
    (∃ fwd, (maulCtForward compactScheme ⟨.deltaK (.ofAdd 1), .delta (.ofAdd (3, 1))⟩ 7 >>= fun c =>
        cgRerand compactScheme ⟨.deltaK (.ofAdd 0)⟩ c 2) = .ok fwd) ∧
    (makeEncZeroPair compactScheme ⟨.deltaK (.ofAdd 0)⟩ 2 >>=
        maulFwdRerand compactScheme ⟨.deltaK (.ofAdd 1), .delta (.ofAdd (3, 1))⟩ 7) =
      .error "composition outside the class group" ∧
    ¬ FusedIsSequential compactScheme ⟨.deltaK (.ofAdd 2)⟩
      ⟨.deltaK (.ofAdd 1), .delta (.ofAdd (3, 1))⟩ 7 2 := by
  refine ⟨⟨_, rfl⟩, rfl, ?_⟩
  rintro ⟨pk', fwd, inv, hpk', hfused, -⟩
  cases hpk'
  cases hfused

/-- A mauled secret key keeps its pairing with the mauled public key and opens
the mauled ciphertext. -/
def MaulCoherent (cs : CLHSMqk GK GD) (sk : cs.SecretKey) (r : Mpz) (m : cs.ClearText) (t : Mpz) :
    Prop :=
  ∃ sk' pk pk' ct ct', maulSk cs sk r = .ok sk' ∧ cs.keygenPk sk = .ok pk ∧
    maulPk cs pk r = .ok pk' ∧ cs.encrypt pk m t = .ok ct ∧ maulCtForward cs ct r = .ok ct' ∧
    cs.keygenPk sk' = .ok pk' ∧ cs.decrypt sk' ct' = .ok m.1

section

variable {cs : CLHSMqk GK GD}

open CLHSMqk

theorem maulSk_eq (sk : cs.SecretKey) (r : Mpz) :
    ∃ sk' : cs.SecretKey, maulSk cs sk r = .ok sk' ∧ sk'.1 = (sk.1 + r) % cs.secretkeyBound := by
  have hB : (0 : Mpz) < cs.secretkeyBound := sk.2.1.trans_lt sk.2.2
  have hrange := CoeffList.emod_range hB (sk.1 + r)
  exact ⟨⟨_, hrange⟩, dif_pos hrange, rfl⟩

theorem zpow_reduced_iff (g : GD) {B : ℕ} {a r : ℤ} (ha : 0 ≤ a ∧ a < B) (hr : 0 ≤ r ∧ r < B) :
    g ^ ((a + r) % B) = g ^ (a + r) ↔ a + r < B ∨ orderOf g ∣ B := by
  by_cases hlt : a + r < B
  · rw [Int.emod_eq_of_lt (by omega) hlt]
    simp only [hlt, true_or]
  · have hmod : (a + r) % B = a + r - B := by
      rw [← Int.sub_emod_right, Int.emod_eq_of_lt (by omega) (by omega)]
    rw [hmod, zpow_sub, mul_inv_eq_iff_eq_mul, eq_comm, mul_eq_left, zpow_natCast,
      ← orderOf_dvd_iff_pow_eq_one]
    simp only [hlt, false_or]

/-- The mauled keys and ciphertexts are coherent exactly when the sum stays
below the bound of the secret keys or the order of `h` divides that bound. -/
theorem maulCoherent_iff (hc : cs.compactVariant = false) (sk : cs.SecretKey) {r : Mpz}
    (hr : 0 ≤ r ∧ r < cs.secretkeyBound) (m : cs.ClearText) (t : Mpz) :
    MaulCoherent cs sk r m t ↔
      sk.1 + r < cs.secretkeyBound ∨ orderOf cs.base ∣ cs.secretkeyBound := by
  obtain ⟨sk', hsk', hval⟩ := maulSk_eq sk r
  have hpair : cs.keygenPk sk' = .ok ⟨.delta (cs.base ^ sk.1 * cs.base ^ r)⟩ ↔
      sk.1 + r < cs.secretkeyBound ∨ orderOf cs.base ∣ cs.secretkeyBound := by
    rw [keygenPk_eq hc, hval, ← zpow_add, Except.ok.injEq, PublicKey.mk.injEq, QFI.delta.injEq]
    exact zpow_reduced_iff cs.base sk.2 hr
  rw [← hpair]
  constructor
  · rintro ⟨sk'', pk, pk', ct, ct', h1, h2, h3, -, -, h6, -⟩
    rw [hsk', Except.ok.injEq] at h1
    rw [keygenPk_eq hc, Except.ok.injEq] at h2
    subst h1 h2
    rw [maulPk_eq hc, Except.ok.injEq] at h3
    exact h6.trans (congrArg Except.ok h3.symm)
  · intro hkey
    have hK : cs.base ^ sk'.1 = cs.base ^ sk.1 * cs.base ^ r := by
      rw [keygenPk_eq hc, Except.ok.injEq, PublicKey.mk.injEq, QFI.delta.injEq] at hkey
      exact hkey
    refine ⟨sk', _, _, _, _, hsk', keygenPk_eq hc sk, maulPk_eq hc _ r, encrypt_eq hc _ m t,
      maulCtForward_eq hc (ElGamal.enc cs.base cs.f (cs.base ^ sk.1) m.1 t) r, hkey, ?_⟩
    rw [ElGamal.shift_enc, ← hK]
    exact (decrypt_eq hc sk' m.1 t).trans (congrArg _ (Int.emod_eq_of_lt m.2.1 m.2.2))

end

theorem maulCoherent_iff_small :
    MaulCoherent smallScheme ⟨7, by decide⟩ 11 ⟨3, by decide⟩ 2 :=
  (maulCoherent_iff rfl _ (by decide) _ 2).mpr (Or.inr (by
    have h3 : smallScheme.base ^ 12 = 1 := by decide
    exact orderOf_dvd_of_pow_eq_one h3))

def unalignedScheme : CLHSMqk Unit (Multiplicative (ZMod 5 × ZMod 3)) where
  q := smallScheme.q
  prime_q := prime_small
  compactVariant := false
  h := smallScheme.h
  discriminant_h := discriminant_small
  f := smallScheme.f
  orderOf_f := orderOf_small
  dlog := smallScheme.dlog
  dlog_pow := dlog_pow_small
  lift := smallScheme.lift
  secretkeyBound := 10

/-- The keys `7` and `(7 + 9) % 10` differ by ten steps in a group of order three. -/
theorem maulCoherent_unaligned :
    maulSk unalignedScheme ⟨7, by decide⟩ 9 = .ok ⟨6, by decide⟩ ∧
    unalignedScheme.keygenPk ⟨6, by decide⟩ = .ok ⟨.delta (.ofAdd (0, 0))⟩ ∧
    (unalignedScheme.keygenPk ⟨7, by decide⟩ >>= fun pk => maulPk unalignedScheme pk 9) =
      .ok ⟨.delta (.ofAdd (0, 1))⟩ ∧
    ¬ MaulCoherent unalignedScheme ⟨7, by decide⟩ 9 ⟨3, by decide⟩ 2 := by
  refine ⟨rfl, rfl, rfl, ?_⟩
  rintro ⟨sk', pk, pk', ct, ct', h1, h2, h3, -, -, h6, -⟩
  cases h1
  cases h2
  cases h3
  cases h6

end RfClassGroups
