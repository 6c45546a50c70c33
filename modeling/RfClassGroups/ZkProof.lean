import RfClassGroups.HomomorphicEval

/-! The noninteractive proof that a ciphertext is well formed: what the prover computes from
its randomness, and every check of the verifier. -/

open ExceptList

namespace RfClassGroups

open Bicycl (FitsInt)

variable {GK GD : Type} [CommGroup GK] [CommGroup GD]

/-- The hash of the public key, the ciphertext and the commitment, with its length. -/
structure HashAlgo (GK GD : Type) where
  digestNbits : ℕ
  hash : PublicKey GK GD → CipherText GK GD → QFI GK GD → QFI GK GD → ℕ
  hash_lt : ∀ pk c t1 t2, hash pk c t1 t2 < 2 ^ digestNbits

structure ZKAoKProof where
  u1 : Mpz
  u2 : Mpz
  k : Mpz

namespace CLHSMqk

variable (cs : CLHSMqk GK GD) (pw : FixedPowers GK GD) (H : HashAlgo GK GD)

/-- What the verifier knows besides the public parameters of encryption. -/
structure ProofParams (GK GD : Type) where
  randomnessBound : ℕ
  lambdaDistance : ℕ
  genus : QFI GK GD → ℤ × ℤ

variable (P : ProofParams GK GD)

/-- The bound below which the prover draws the first mask. -/
def proofBound : ℕ := P.randomnessBound * 2 ^ H.digestNbits * 2 ^ P.lambdaDistance

/-- The bound of the verifier on the response to the randomness. -/
def responseBound : ℕ := (2 ^ P.lambdaDistance + 1) * 2 ^ H.digestNbits * P.randomnessBound

/-- `CL_HSMqk_ZKAoKProof::CL_HSMqk_ZKAoKProof`, after it has drawn `r1` and `r2`. -/
def zkProve (pk : PublicKey GK GD) (c : CipherText GK GD) (a : cs.ClearText) (r r1 r2 : Mpz) :
    Except String ZKAoKProof := do
  let t ← cs.encryptWith pw pk (← cs.clearText r2) r1
  let k := H.hash pk c t.c1 t.c2
  return ⟨k * r + r1, (k * a.1 + r2) % cs.q, k⟩

def inG (f : QFI GK GD) (cl : ClassGroup) : Bool :=
  f.discriminant == some cl && P.genus f == (1, 1)

/-- `CL_HSMqk_ZKAoKProof::verify` -/
def zkVerify (pk : PublicKey GK GD) (c : CipherText GK GD) (proof : ZKAoKProof) :
    Except String Bool := do
  let ret := inG P pk.elt cs.clG && inG P c.c1 cs.clG && inG P c.c2 .delta
  let B := responseBound H P
  let ret := ret && (0 ≤ proof.u1 && proof.u1 ≤ B) && (0 ≤ proof.u2 && proof.u2 < cs.q)
  let cu1 ← pw.powerOfH proof.u1
  let cu2 ← pw.exponentiation pk proof.u1
  let cu2 ← cs.liftCompact cu2
  let cu2 ← ClassGroup.delta.nucomp cu2 (cs.powerOfF proof.u2)
  let c1k ← cs.clG.nupow c.c1 proof.k
  let c2k ← ClassGroup.delta.nupow c.c2 proof.k
  let t1 ← cs.clG.nucompinv cu1 c1k
  let t2 ← ClassGroup.delta.nucompinv cu2 c2k
  return ret && (H.hash pk c t1 t2 : Mpz) == proof.k

/-- A key pair, an encryption, its proof and the check of it. -/
def zkRun (sk : cs.SecretKey) (a : cs.ClearText) (r r1 r2 : Mpz) : Except String Bool := do
  let pk ← cs.keygenWith pw sk
  let c ← cs.encryptWith pw pk a r
  let proof ← cs.zkProve pw H pk c a r r1 r2
  cs.zkVerify pw H P pk c proof

section

variable {cs pw H P} {G : Type} [CommGroup G] {V : View cs G}

/-- Squares pass the check of the genus. -/
structure View.GenusOne (V : View cs G) (P : ProofParams GK GD) : Prop where
  first : ∀ x, IsSquare x → P.genus (V.inj x) = (1, 1)
  second : ∀ y, IsSquare y → P.genus (.delta y) = (1, 1)
  base : IsSquare V.base

/-- The order of `f` is odd. -/
theorem isSquare_f (hodd : cs.q % 2 = 1) (m : ℤ) : IsSquare (cs.f ^ m) := by
  have hf : IsSquare cs.f := by
    refine ⟨cs.f ^ ((cs.q + 1) / 2), ?_⟩
    rw [← pow_add]
    have hhalf : (cs.q + 1) / 2 + (cs.q + 1) / 2 = cs.q + 1 := by omega
    rw [hhalf, pow_succ, ← cs.orderOf_f, pow_orderOf_eq_one, one_mul]
  exact hf.zpow m

theorem encryptWith_eq (hpw : V.Powers pw) (sk : ℤ) (m : cs.ClearText) {r : ℕ} (hr : FitsInt r) :
    cs.encryptWith pw ⟨V.inj (V.base ^ sk)⟩ m r =
      .ok ⟨V.inj (V.base ^ r), .delta (V.down (V.base ^ r) ^ sk * cs.f ^ m.1)⟩ := by
  obtain ⟨hh, he⟩ := zero_eq hpw sk hr
  simp only [encryptWith, hh, he, ok_bind, V.liftCompact, powerOfF, delta_nucomp, pure_eq_ok,
    map_zpow]

omit [CommGroup GK] [CommGroup GD] in
theorem responseBound_eq :
    responseBound H P = proofBound H P + 2 ^ H.digestNbits * P.randomnessBound := by
  rw [responseBound, proofBound]
  ring

omit [CommGroup GK] [CommGroup GD] in
/-- The response lies within the bound of the verifier. -/
theorem response_le {k r r1 : ℕ} (hk : k < 2 ^ H.digestNbits) (hr : r < P.randomnessBound)
    (hr1 : r1 < proofBound H P) : k * r + r1 ≤ responseBound H P := by
  have hkr : k * r ≤ 2 ^ H.digestNbits * P.randomnessBound := Nat.mul_le_mul hk.le hr.le
  rw [responseBound_eq]
  omega

omit [CommGroup GK] [CommGroup GD] in
theorem randomnessBound_le : P.randomnessBound ≤ responseBound H P := by
  rw [responseBound_eq]
  exact (Nat.le_mul_of_pos_left _ (Nat.two_pow_pos _)).trans (Nat.le_add_left _ _)

/-- The first equation of the verifier. -/
theorem response_first (x : G) (k r r1 : ℕ) : x ^ (k * r + r1) / (x ^ r) ^ k = x ^ r1 := by
  rw [pow_add, mul_comm k r, pow_mul, mul_div_cancel_left]

/-- The second equation. The response to the message is reduced modulo the order of `f`. -/
theorem response_second (cs : CLHSMqk GK GD) (y : GD) (a : ℤ) (k r r1 r2 : ℕ) :
    y ^ (k * r + r1) * cs.f ^ ((k * a + r2) % cs.q) / (y ^ r * cs.f ^ a) ^ k =
      y ^ r1 * cs.f ^ r2 := by
  have hf : cs.f ^ ((k * a + r2) % cs.q) = (cs.f ^ a) ^ k * cs.f ^ r2 := by
    rw [← cs.orderOf_f, zpow_mod_orderOf, zpow_add, mul_comm (k : ℤ), zpow_mul, zpow_natCast,
      zpow_natCast]
  have hy : y ^ (k * r + r1) = (y ^ r) ^ k * y ^ r1 := by
    rw [pow_add, mul_comm k r, pow_mul]
  rw [hf, hy, mul_pow, mul_mul_mul_comm, mul_div_cancel_left]

theorem clearText_of_range {v : ℤ} (h : 0 ≤ v ∧ v < cs.q) : cs.clearText v = .ok ⟨v, h⟩ := dif_pos h

/-- The proof for a ciphertext with the randomness `r`. -/
theorem zkProve_eq (hpw : V.Powers pw) (sk : ℤ) (c : CipherText GK GD) (a : cs.ClearText)
    (r : ℕ) {r1 r2 : ℕ} (hr1 : FitsInt r1) (hr2 : r2 < cs.q) :
    ∃ k, k = H.hash ⟨V.inj (V.base ^ sk)⟩ c (V.inj (V.base ^ r1))
        (.delta (V.down (V.base ^ r1) ^ sk * cs.f ^ r2)) ∧
      cs.zkProve pw H ⟨V.inj (V.base ^ sk)⟩ c a r r1 r2 =
        .ok ⟨(k * r + r1 : ℕ), (k * a.1 + r2) % cs.q, k⟩ := by
  have hrange : 0 ≤ (r2 : ℤ) ∧ (r2 : ℤ) < cs.q := ⟨by positivity, by exact_mod_cast hr2⟩
  refine ⟨_, rfl, ?_⟩
  rw [zkProve, clearText_of_range hrange, ok_bind, encryptWith_eq hpw _ _ hr1, ok_bind,
    zpow_natCast]
  push_cast
  rfl

omit [CommGroup GK] [CommGroup GD] in
theorem inG_eq {f : QFI GK GD} {cl : ClassGroup} (hd : f.discriminant = some cl)
    (hg : P.genus f = (1, 1)) : inG P f cl = true := by
  rw [inG, hd, hg]
  simp

theorem delta_nucompinv (x y : GD) :
    ClassGroup.delta.nucompinv (.delta x : QFI GK GD) (.delta y) = .ok (.delta (x / y)) := rfl

theorem down_pow (sk : ℤ) (n : ℕ) : V.down (V.base ^ n) ^ sk = (V.down V.base ^ sk) ^ n := by
  rw [map_pow, ← zpow_natCast, ← zpow_natCast, zpow_comm]

/-- The proof passes every check of the verifier. -/
theorem zkVerify_eq (hpw : V.Powers pw) (hgenus : V.GenusOne P) (hodd : cs.q % 2 = 1) (sk : ℤ)
    (a : cs.ClearText) {k r r1 r2 : ℕ} (hr : r < P.randomnessBound) (hr1 : r1 < proofBound H P)
    (hbound : FitsInt (responseBound H P)) {c : CipherText GK GD}
    (hc : c = ⟨V.inj (V.base ^ r), .delta (V.down (V.base ^ r) ^ sk * cs.f ^ a.1)⟩)
    (hk : k = H.hash ⟨V.inj (V.base ^ sk)⟩ c (V.inj (V.base ^ r1))
      (.delta (V.down (V.base ^ r1) ^ sk * cs.f ^ r2))) :
    cs.zkVerify pw H P ⟨V.inj (V.base ^ sk)⟩ c ⟨(k * r + r1 : ℕ), (k * a.1 + r2) % cs.q, k⟩ =
      .ok true := by
  have hq : (0 : ℤ) < cs.q := by exact_mod_cast cs.prime_q.pos
  have hkey : inG P (V.inj (V.base ^ sk)) cs.clG = true :=
    inG_eq (V.discriminant _) (hgenus.first _ (hgenus.base.zpow sk))
  have hc1 : inG P c.c1 cs.clG = true := by
    rw [hc]
    exact inG_eq (V.discriminant _) (hgenus.first _ (hgenus.base.pow r))
  have hc2 : inG P c.c2 .delta = true := by
    rw [hc]
    exact inG_eq rfl (hgenus.second _ ((((hgenus.base.pow r).map V.down).zpow sk).mul
      (isSquare_f hodd a.1)))
  have hlt : k < 2 ^ H.digestNbits := hk ▸ H.hash_lt _ _ _ _
  have hle := response_le hlt hr hr1
  have hu1 : ((k * r + r1 : ℕ) : ℤ) ≤ responseBound H P := by exact_mod_cast hle
  have hu0 : 0 ≤ ((k * r + r1 : ℕ) : ℤ) := Int.natCast_nonneg _
  have hu2 : 0 ≤ (k * a.1 + r2) % (cs.q : ℤ) ∧ (k * a.1 + r2) % (cs.q : ℤ) < cs.q :=
    ⟨Int.emod_nonneg _ hq.ne', Int.emod_lt_of_pos _ hq⟩
  obtain ⟨hh, he⟩ := zero_eq hpw sk (hbound.mono hle)
  have hfirst := response_first V.base k r r1
  have hsecond := response_second cs (V.down V.base ^ sk) a.1 k r r1 r2
  have hc1k : cs.clG.nupow c.c1 k = .ok (V.inj ((V.base ^ r) ^ k)) := by
    rw [hc, V.nupow, zpow_natCast]
  have hc2k : ClassGroup.delta.nupow c.c2 k =
      .ok (.delta (((V.down V.base ^ sk) ^ r * cs.f ^ a.1) ^ k)) := by
    rw [hc, down_pow, delta_nupow, zpow_natCast]
  rw [down_pow] at hk
  simp only [zkVerify, hkey, hc1, hc2, hh, he, hc1k, hc2k, ok_bind, V.liftCompact, powerOfF,
    delta_nucomp, map_zpow, down_pow, V.nucompinv, delta_nucompinv, hfirst, hsecond, ← hk, hu0, hu1,
    hu2.1, hu2.2, pure_eq_ok, beq_self_eq_true, decide_true, Bool.and_self]

/-- Whatever the hash, an honest proof is accepted. -/
theorem zkRun_eq (hpw : V.Powers pw) (hgenus : V.GenusOne P) (hodd : cs.q % 2 = 1)
    (sk : cs.SecretKey) (a : cs.ClearText) {r r1 r2 : ℕ} (hr : r < P.randomnessBound)
    (hr1 : r1 < proofBound H P) (hr2 : r2 < cs.q) (hsk : FitsInt sk.1)
    (hbound : FitsInt (responseBound H P)) : cs.zkRun pw H P sk a r r1 r2 = .ok true := by
  have hrFits := hbound.mono (hr.le.trans randomnessBound_le)
  have hr1Fits : FitsInt r1 := hbound.mono (by rw [responseBound_eq]; omega)
  obtain ⟨k, hk, hproof⟩ := zkProve_eq (H := H) hpw sk.1
    ⟨V.inj (V.base ^ r), .delta (V.down (V.base ^ r) ^ sk.1 * cs.f ^ a.1)⟩ a r hr1Fits hr2
  rw [zkRun, keygenWith_eq hpw sk hsk, ok_bind, encryptWith_eq hpw _ _ hrFits, ok_bind, hproof,
    ok_bind]
  exact zkVerify_eq hpw hgenus hodd sk.1 a hr hr1 hbound rfl hk

end

end CLHSMqk

end RfClassGroups
