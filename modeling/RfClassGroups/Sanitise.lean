import Mathlib.Data.ZMod.Basic
import RfClassGroups.RfOle

/-! Sanitisation by the firewalls with ideal scalars, drawn from the residues
modulo the order of the generator: what a firewall emits depends on the
plaintexts and on its own scalars only. -/

open ExceptList

namespace RfClassGroups

variable {GK GD : Type} [CommGroup GK] [CommGroup GD]

def idealScalars {o N : ℕ} (s : Fin N → ZMod o) (i : ℕ) : Mpz :=
  if h : i < N then (s ⟨i, h⟩).cast else 0

/-- What the receiver firewall emits in round 1, from the coins of the receiver. -/
def receiverFirewallEmits (envR envF : Env) (cs : CLHSMqk GK GD) (sk : cs.SecretKey)
    (encX : ℕ → Mpz) (xVals : List Mpz) {o : ℕ} (rMaul : ZMod o) (s : Fin xVals.length → ZMod o) :
    Except String (PublicKey GK GD × Lanes (CipherText GK GD)) := do
  let pk ← cs.keygenPk sk
  let r1 ← rfOleReceiveR1 envR cs pk xVals encX
  let st ← firewallR1 envF cs ⟨rMaul.cast, idealScalars s, fun _ => 0⟩ pk r1
  return (st.outKey, st.out)

/-- What the sender firewall emits in round 2, from its round-1 traffic and the
inputs and coins of the sender. -/
def senderFirewallEmits (envF envS : Env) (cs : CLHSMqk GK GD) (pk : PublicKey GK GD)
    (r1 : Lanes (CipherText GK GD)) (rho : Mpz) (s1 : ℕ → Mpz) (aVals bVals : List Mpz)
    (encB : ℕ → Mpz) {o N : ℕ} (s : Fin N → ZMod o) :
    Except String (Lanes (CipherText GK GD)) := do
  let st ← firewallR1 envF cs ⟨rho, s1, idealScalars s⟩ pk r1
  let y ← rfOleBatchSend envS cs st.outKey aVals bVals encB st.out
  firewallR2 envF cs ⟨rho, s1, idealScalars s⟩ st y

theorem inFlight_congr {α : Type} {c d : ℕ → α} {n : ℕ} (lanes : ℕ) (h : ∀ i < n, c i = d i) :
    inFlight c n lanes 0 n = inFlight d n lanes 0 n := by
  apply List.map_congr_left
  intro lane _
  apply List.map_congr_left
  intro i hi
  rw [List.mem_range'_1] at hi
  exact h i (by omega)

section

abbrev IdealScalar (cs : CLHSMqk GK GD) := ZMod (orderOf cs.base)

variable {cs : CLHSMqk GK GD}

theorem cast_add_modEq (z : IdealScalar cs) (d : ℤ) :
    ((z + (d : IdealScalar cs)).cast : ℤ) ≡ z.cast + d [ZMOD orderOf cs.base] := by
  rw [← ZMod.intCast_eq_intCast_iff]
  simp

theorem idealScalars_add_modEq {N : ℕ} (s : Fin N → IdealScalar cs) (d : ℕ → ℤ) {i : ℕ}
    (hi : i < N) :
    idealScalars (s + fun j : Fin N => ((d j : ℤ) : IdealScalar cs)) i ≡
      idealScalars s i + d i [ZMOD orderOf cs.base] := by
  simp only [idealScalars, dif_pos hi]
  exact cast_add_modEq _ _

theorem cipher_congr {sk sk' m m' r r' : ℤ} (hm : m ≡ m' [ZMOD cs.q])
    (hs : sk ≡ sk' [ZMOD orderOf cs.base]) (hr : r ≡ r' [ZMOD orderOf cs.base]) :
    cs.cipher (cs.base ^ sk) m r = cs.cipher (cs.base ^ sk') m' r' :=
  CLHSMqk.cipher_ext (ElGamal.enc_congr cs.base cs.f cs.orderOf_f hm hs hr)

variable {envs : RfEnvs} {n lanes chunk : ℕ} (hc : cs.compactVariant = false)
include hc

theorem receiverFirewallEmits_eq {xVals : List Mpz}
    (ht : RfTransport envs xVals.length lanes chunk)
    (hx : ∀ x ∈ xVals, 0 ≤ x ∧ x < cs.cleartextBound) (sk : cs.SecretKey) (encX : ℕ → Mpz)
    (rMaul : IdealScalar cs) (s : Fin xVals.length → IdealScalar cs) :
    receiverFirewallEmits envs.receiver envs.receiverFirewall cs sk encX xVals rMaul s =
      .ok (⟨.delta (cs.base ^ (sk.1 + rMaul.cast))⟩, inFlight (fun i =>
        cs.cipher (cs.base ^ (sk.1 + rMaul.cast)) (xVals.getD i 0) (encX i + idealScalars s i))
        xVals.length lanes 0 xVals.length) := by
  obtain ⟨bufs, _, _, hfw⟩ := firewallR1_eq hc ht.receiverFirewall ht.receiverFirewall_n
    ⟨rMaul.cast, idealScalars s, fun _ => 0⟩ (cs.base ^ sk.1) (fun i => xVals.getD i 0) encX
  rw [receiverFirewallEmits, CLHSMqk.keygenPk_eq hc, ok_bind, rfOleReceiveR1_eq hc ht.receiver hx,
    ok_bind, hfw, zpow_add]
  rfl

theorem senderFirewallEmits_eq (ht : RfTransport envs n lanes chunk) (K : GD) (m r : ℕ → ℤ)
    (rho : Mpz) (s1 : ℕ → Mpz) {aVals bVals : List Mpz} (han : aVals.length = n)
    (hbn : bVals.length = n) (hb : ∀ b ∈ bVals, 0 ≤ b ∧ b < cs.cleartextBound) (encB : ℕ → Mpz)
    (s : Fin n → IdealScalar cs) :
    senderFirewallEmits envs.senderFirewall envs.sender cs ⟨.delta K⟩
      (inFlight (fun i => cs.cipher K (m i) (r i)) n lanes 0 n) rho s1 aVals bVals encB s =
      .ok (inFlight (fun i => cs.cipher K (m i * aVals.getD i 0 + bVals.getD i 0)
        ((r i + s1 i) * aVals.getD i 0 + encB i + idealScalars s i)) n lanes 0 n) := by
  obtain ⟨bufs, hin, hout, hfw⟩ := firewallR1_eq hc ht.senderFirewall ht.senderFirewall_n
    ⟨rho, s1, idealScalars s⟩ K m r
  have hsend := rfOleBatchSend_eq hc (han.symm ▸ ht.sender) (han.trans hbn.symm) hb
    (K * cs.base ^ rho) encB m fun i => r i + s1 i
  rw [han] at hsend
  rw [senderFirewallEmits, hfw, ok_bind]
  dsimp only
  rw [hsend, ok_bind, firewallR2_eq hc ht.senderFirewall ht.senderFirewall_n _ K _ _ rfl hin hout]

/-- The scalars of the receiver firewall that hide another key and other coins. -/
theorem receiverFirewallEmits_shift {xVals : List Mpz}
    (ht : RfTransport envs xVals.length lanes chunk)
    (hx : ∀ x ∈ xVals, 0 ≤ x ∧ x < cs.cleartextBound) (sk sk' : cs.SecretKey)
    (encX encX' : ℕ → Mpz) (rMaul : IdealScalar cs) (s : Fin xVals.length → IdealScalar cs) :
    receiverFirewallEmits envs.receiver envs.receiverFirewall cs sk' encX' xVals
        (rMaul + ((sk.1 - sk'.1 : ℤ) : IdealScalar cs))
        (s + fun i : Fin xVals.length => ((encX i - encX' i : ℤ) : IdealScalar cs)) =
      receiverFirewallEmits envs.receiver envs.receiverFirewall cs sk encX xVals rMaul s := by
  have hkey : sk'.1 + (rMaul + ((sk.1 - sk'.1 : ℤ) : IdealScalar cs)).cast ≡
      sk.1 + rMaul.cast [ZMOD orderOf cs.base] := by
    have h := (cast_add_modEq rMaul (sk.1 - sk'.1)).add_left sk'.1
    have heq : sk'.1 + ((rMaul.cast : ℤ) + (sk.1 - sk'.1)) = sk.1 + rMaul.cast := by ring
    exact heq ▸ h
  have hpow := zpow_eq_zpow_iff_modEq.mpr hkey
  rw [receiverFirewallEmits_eq hc ht hx, receiverFirewallEmits_eq hc ht hx]
  refine congrArg Except.ok (Prod.ext (congrArg (fun g => PublicKey.mk (.delta g)) hpow) ?_)
  apply inFlight_congr
  intro i hi
  apply cipher_congr rfl hkey
  have h := (idealScalars_add_modEq s (fun j => encX j - encX' j) hi).add_left (encX' i)
  have heq : encX' i + (idealScalars s i + (encX i - encX' i)) = encX i + idealScalars s i := by
    ring
  exact heq ▸ h

/-- The scalars of the sender firewall that hide another sender with the same
outputs: `d` is what the randomness of the responses differs by. -/
theorem senderFirewallEmits_shift (ht : RfTransport envs n lanes chunk) (k : ℤ)
    {x r : ℕ → ℤ} (rho : Mpz) (s1 : ℕ → Mpz)
    {aVals bVals aVals' bVals' : List Mpz} (encB encB' : ℕ → Mpz) (han : aVals.length = n)
    (hbn : bVals.length = n) (han' : aVals'.length = n) (hbn' : bVals'.length = n)
    (hb : ∀ b ∈ bVals, 0 ≤ b ∧ b < cs.cleartextBound)
    (hb' : ∀ b ∈ bVals', 0 ≤ b ∧ b < cs.cleartextBound)
    (hout : ∀ i < n, aVals.getD i 0 * x i + bVals.getD i 0 ≡
      aVals'.getD i 0 * x i + bVals'.getD i 0 [ZMOD cs.q])
    {d : ℕ → ℤ} (hd : ∀ i, d i = ((r i + s1 i) * aVals.getD i 0 + encB i) -
      ((r i + s1 i) * aVals'.getD i 0 + encB' i)) (s : Fin n → IdealScalar cs) :
    senderFirewallEmits envs.senderFirewall envs.sender cs ⟨.delta (cs.base ^ k)⟩
        (inFlight (fun i => cs.cipher (cs.base ^ k) (x i) (r i)) n lanes 0 n) rho s1 aVals' bVals' encB'
        (s + fun i : Fin n => ((d i : ℤ) : IdealScalar cs)) =
      senderFirewallEmits envs.senderFirewall envs.sender cs ⟨.delta (cs.base ^ k)⟩
        (inFlight (fun i => cs.cipher (cs.base ^ k) (x i) (r i)) n lanes 0 n) rho s1 aVals bVals encB s := by
  rw [senderFirewallEmits_eq hc ht _ x r rho s1 han' hbn' hb' encB',
    senderFirewallEmits_eq hc ht _ x r rho s1 han hbn hb encB]
  apply congrArg Except.ok
  apply inFlight_congr
  intro i hi
  refine cipher_congr ?_ rfl ?_
  · have h := (hout i hi).symm
    rwa [mul_comm (aVals'.getD i 0), mul_comm (aVals.getD i 0)] at h
  · have h := (idealScalars_add_modEq s d hi).add_left ((r i + s1 i) * aVals'.getD i 0 + encB' i)
    have heq : (r i + s1 i) * aVals'.getD i 0 + encB' i + (idealScalars s i + d i) =
        (r i + s1 i) * aVals.getD i 0 + encB i + idealScalars s i := by
      rw [hd]
      ring
    exact heq ▸ h

/-- Shifting the scalars of the receiver firewall makes up for other coins of the
receiver, and shifting those of the sender firewall makes up for another sender
with the same outputs. -/
theorem firewalls_sanitise (ht : RfTransport envs n lanes chunk) {xVals : List Mpz}
    (hxn : xVals.length = n) (hx : ∀ x ∈ xVals, 0 ≤ x ∧ x < cs.cleartextBound) :
    (∀ (sk sk' : cs.SecretKey) (encX encX' : ℕ → Mpz),
      ∃ e : IdealScalar cs × (Fin xVals.length → IdealScalar cs) ≃
          IdealScalar cs × (Fin xVals.length → IdealScalar cs), ∀ z, ∃ emitted,
        receiverFirewallEmits envs.receiver envs.receiverFirewall cs sk encX xVals z.1 z.2 =
          .ok emitted ∧
        receiverFirewallEmits envs.receiver envs.receiverFirewall cs sk' encX' xVals (e z).1
          (e z).2 = .ok emitted) ∧
    ∀ (k : ℤ) (r : ℕ → ℤ) (rho : Mpz) (s1 : ℕ → Mpz) (aVals bVals aVals' bVals' : List Mpz)
      (encB encB' : ℕ → Mpz), aVals.length = n → bVals.length = n → aVals'.length = n →
      bVals'.length = n → (∀ b ∈ bVals, 0 ≤ b ∧ b < cs.cleartextBound) →
      (∀ b ∈ bVals', 0 ≤ b ∧ b < cs.cleartextBound) →
      (∀ i < n, aVals.getD i 0 * xVals.getD i 0 + bVals.getD i 0 ≡
        aVals'.getD i 0 * xVals.getD i 0 + bVals'.getD i 0 [ZMOD cs.q]) →
      ∃ e : (Fin n → IdealScalar cs) ≃ (Fin n → IdealScalar cs), ∀ s, ∃ emitted,
        senderFirewallEmits envs.senderFirewall envs.sender cs ⟨.delta (cs.base ^ k)⟩
          (inFlight (fun i => cs.cipher (cs.base ^ k) (xVals.getD i 0) (r i)) n lanes 0 n) rho s1
          aVals bVals encB s = .ok emitted ∧
        senderFirewallEmits envs.senderFirewall envs.sender cs ⟨.delta (cs.base ^ k)⟩
          (inFlight (fun i => cs.cipher (cs.base ^ k) (xVals.getD i 0) (r i)) n lanes 0 n) rho s1
          aVals' bVals' encB' (e s) = .ok emitted := by
  constructor
  · intro sk sk' encX encX'
    have htx : RfTransport envs xVals.length lanes chunk := hxn.symm ▸ ht
    refine ⟨(Equiv.addRight ((sk.1 - sk'.1 : ℤ) : IdealScalar cs)).prodCongr
      (Equiv.addRight fun i => ((encX i - encX' i : ℤ) : IdealScalar cs)), fun z => ?_⟩
    have hemits := receiverFirewallEmits_eq hc htx hx sk encX z.1 z.2
    exact ⟨_, hemits, (receiverFirewallEmits_shift hc htx hx sk sk' encX encX' z.1 z.2).trans hemits⟩
  · intro k r rho s1 aVals bVals aVals' bVals' encB encB' han hbn han' hbn' hb hb' hout
    refine ⟨Equiv.addRight fun i => (((((r i + s1 i) * aVals.getD i 0 + encB i) -
      ((r i + s1 i) * aVals'.getD i 0 + encB' i) : ℤ)) : IdealScalar cs), fun s => ?_⟩
    have hemits := senderFirewallEmits_eq hc ht (cs.base ^ k) (fun i => xVals.getD i 0) r rho s1
      han hbn hb encB s
    exact ⟨_, hemits, (senderFirewallEmits_shift hc ht k rho s1 encB encB' han hbn han' hbn' hb hb'
      hout (fun _ => rfl) s).trans hemits⟩

end

theorem firewalls_sanitise_small :
    ∃ e : (Fin 5 → IdealScalar smallScheme) ≃ (Fin 5 → IdealScalar smallScheme),
      ∀ s, ∃ emitted,
      senderFirewallEmits (smallEnv "5") (smallEnv "5") smallScheme
        ⟨.delta (smallScheme.base ^ (18 : ℤ))⟩ (inFlight (fun i =>
          smallScheme.cipher (smallScheme.base ^ (18 : ℤ)) (([0, 1, 2, 3, 4] : List Mpz).getD i 0) i)
          5 3 0 5) 4 (fun i => i) [4, 3, 2, 1, 0] [1, 1, 1, 2, 2] (fun i => 2 * i) s = .ok emitted ∧
      senderFirewallEmits (smallEnv "5") (smallEnv "5") smallScheme
        ⟨.delta (smallScheme.base ^ (18 : ℤ))⟩ (inFlight (fun i =>
          smallScheme.cipher (smallScheme.base ^ (18 : ℤ)) (([0, 1, 2, 3, 4] : List Mpz).getD i 0) i)
          5 3 0 5) 4 (fun i => i) [0, 0, 0, 0, 0] [1, 4, 0, 0, 2] (fun _ => 7) (e s) =
          .ok emitted :=
  (firewalls_sanitise rfl smallEnvs_transport (rfl : ([0, 1, 2, 3, 4] : List Mpz).length = 5)
    (by decide)).2 18 (fun i => i) 4 (fun i => i) [4, 3, 2, 1, 0] [1, 1, 1, 2, 2] [0, 0, 0, 0, 0]
    [1, 4, 0, 0, 2] (fun i => 2 * i) (fun _ => 7) rfl rfl rfl rfl (by decide) (by decide) (by decide)

end RfClassGroups
