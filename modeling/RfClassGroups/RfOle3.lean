import RfClassGroups.CheckBatchOle
import RfClassGroups.RfOle

/-! The three-round evaluation through two firewalls: the sender owns the key,
the firewalls blind its inputs, the receiver masks what the sender decrypts. A
connection carries the ciphertexts in its lanes; the plaintexts of round 3 follow
them on lane 0 and have a queue of their own. -/

open ExceptList Loops Buffer

namespace RfClassGroups

variable {GK GD : Type} [CommGroup GK] [CommGroup GD]

def sendMpzLanes0 (queue values : List Mpz) : List Mpz := queue ++ values

def recvMpzLanes0 (queue : List Mpz) (n : ℕ) : Except String (List Mpz × List Mpz) :=
  recvLoop queue (List.replicate n 0) 0 n

def samplePlainBlindsOle3 {cs : CLHSMqk GK GD} (n : ℕ) (draw : ℕ → cs.ClearText) : List Mpz :=
  (List.range n).map fun i => (draw i).1

theorem length_samplePlainBlindsOle3 {cs : CLHSMqk GK GD} (n : ℕ) (draw : ℕ → cs.ClearText) :
    (samplePlainBlindsOle3 n draw).length = n := by simp [samplePlainBlindsOle3]

def transformCtFwdBatch (env : Env) (cs : CLHSMqk GK GD) (n : ℕ) (rho : Mpz)
    (targetPk : PublicKey GK GD) (coins : ℕ → Mpz) (inFds outFds : Lanes (CipherText GK GD)) :
    Except String (Lanes (CipherText GK GD) × Lanes (CipherText GK GD)) := do
  let r ← firewallRound env cs (maulFwdRerand cs) n rho targetPk coins inFds outFds
    ⟨List.replicate n default, List.replicate n default⟩
  return (r.1, r.2.1)

def transformCtInvBatch (env : Env) (cs : CLHSMqk GK GD) (n : ℕ) (rho : Mpz)
    (targetPk : PublicKey GK GD) (coins : ℕ → Mpz) (inFds outFds : Lanes (CipherText GK GD)) :
    Except String (Lanes (CipherText GK GD) × Lanes (CipherText GK GD)) := do
  let r ← firewallRound env cs (maulInvRerand cs) n rho targetPk coins inFds outFds
    ⟨List.replicate n default, List.replicate n default⟩
  return (r.1, r.2.1)

/-- The blind is encrypted and added under the source key, before the step to the
target key. -/
def transformCtFwdWithAdditiveBlindBatch (env : Env) (cs : CLHSMqk GK GD) (n : ℕ) (rho : Mpz)
    (sourcePk targetPk : PublicKey GK GD) (blinds : List Mpz) (encCoins coins : ℕ → Mpz)
    (inFds outFds : Lanes (CipherText GK GD)) :
    Except String (Lanes (CipherText GK GD) × Lanes (CipherText GK GD)) := do
  let chunk ← rfChunkSize env
  let r ← (chunks n chunk).foldlM (fun st be => do
    let (inFds, outFds, inBuf, added, pre, out) := st
    let (inFds, inBuf) ← recvCtLanesRange env inFds inBuf n be.1 be.2
    let added ← parallelFor be.1 be.2 added fun i => do
      let encBlind ← encryptPlain cs sourcePk (blinds.getD i 0) (encCoins i)
      cgAdd cs (inBuf.getD i default) encBlind
    let pre ← parallelFor be.1 be.2 pre fun i => makeEncZeroPair cs targetPk (coins i)
    let out ← parallelFor be.1 be.2 out fun i =>
      maulFwdRerand cs (added.getD i default) rho (pre.getD i default)
    let outFds ← sendCtLanesRange env outFds out n be.1 be.2
    return (inFds, outFds, inBuf, added, pre, out))
    (inFds, outFds, List.replicate n default, List.replicate n default, List.replicate n default,
      List.replicate n default)
  return (r.1, r.2.1)

def addPlainBlindModOle3 (values blinds : List Mpz) (q : Mpz) : Except String (List Mpz) := do
  if values.length ≠ blinds.length then throw "OLE3 plaintext blind size mismatch"
  parallelFor 0 values.length (List.replicate values.length (0 : Mpz)) fun i =>
    return (values.getD i 0 + blinds.getD i 0) % q

/-- The draws of an OLE3 firewall: the maul scalar, both blind vectors, and the
scalars of the encrypted blinds and of the three ciphertext streams. -/
structure Ole3FirewallCoins (cs : CLHSMqk GK GD) where
  maul : Mpz
  aBlind : ℕ → cs.ClearText
  bBlind : ℕ → cs.ClearText
  encBlind : ℕ → Mpz
  a : ℕ → Mpz
  b : ℕ → Mpz
  y : ℕ → Mpz

structure Ole3FirewallState (GK GD : Type) where
  inKey : PublicKey GK GD
  outKey : PublicKey GK GD
  out : Lanes (CipherText GK GD)
  aBlinds : List Mpz
  bBlinds : List Mpz

/-- Both firewalls run the same rounds. In round 1 they pass on the key and the
two encrypted vectors. -/
def ole3FirewallR1 (env : Env) (cs : CLHSMqk GK GD) (coins : Ole3FirewallCoins cs)
    (pk : PublicKey GK GD) (inFds : Lanes (CipherText GK GD)) :
    Except String (Ole3FirewallState GK GD) := do
  let n ← requiredEnvSize env "CG_RF_EXPECTED_N"
  let lanes ← rfTransportLanes env
  let outFds ← openLanes (CipherText GK GD) env lanes n
  let pk ← cs.publicKey pk.elt
  let pkPrime ← maulPk cs pk coins.maul
  let aBlinds := samplePlainBlindsOle3 n coins.aBlind
  let bBlinds := samplePlainBlindsOle3 n coins.bBlind
  let r ← transformCtFwdWithAdditiveBlindBatch env cs n coins.maul pk pkPrime aBlinds
    coins.encBlind coins.a inFds outFds
  let r ← transformCtFwdBatch env cs n coins.maul pkPrime coins.b r.1 r.2
  return ⟨pk, pkPrime, r.2, aBlinds, bBlinds⟩

/-- Round 2 takes the masked ciphertexts back to the incoming key. -/
def ole3FirewallR2 (env : Env) (cs : CLHSMqk GK GD) (coins : Ole3FirewallCoins cs)
    (st : Ole3FirewallState GK GD) (inFds : Lanes (CipherText GK GD)) :
    Except String (Lanes (CipherText GK GD)) := do
  let n ← requiredEnvSize env "CG_RF_EXPECTED_N"
  let lanes ← rfTransportLanes env
  let outFds ← openLanes (CipherText GK GD) env lanes n
  let r ← transformCtInvBatch env cs n coins.maul st.inKey coins.y inFds outFds
  return r.2

/-- Round 3 shifts the plaintexts by the second blind vector. -/
def ole3FirewallR3 (env : Env) (cs : CLHSMqk GK GD) (st : Ole3FirewallState GK GD)
    (queue : List Mpz) : Except String (List Mpz) := do
  let n ← requiredEnvSize env "CG_RF_EXPECTED_N"
  let (_, zVals) ← recvMpzLanes0 queue n
  let zVals ← addPlainBlindModOle3 zVals st.bBlinds cs.cleartextBound
  return sendMpzLanes0 [] zVals

def ole3SenderR1 (env : Env) (cs : CLHSMqk GK GD) (pk : PublicKey GK GD) (aVals bVals : List Mpz)
    (encA encB : ℕ → Mpz) : Except String (Lanes (CipherText GK GD)) := do
  let n := aVals.length
  let lanes ← rfTransportLanes env
  let fds ← openLanes (CipherText GK GD) env lanes n
  let enc ← parallelFor 0 n (List.replicate n default) fun i => do
    let aCt ← cs.clearText (aVals.getD i 0)
    let bCt ← cs.clearText (bVals.getD i 0)
    let a ← cs.encrypt pk aCt (encA i)
    let b ← cs.encrypt pk bCt (encB i)
    return (a, b)
  let fds ← sendCtLanes env fds (enc.map Prod.fst) n
  sendCtLanes env fds (enc.map Prod.snd) n

/-- The values the sender decrypts are the values it sends. -/
def ole3SenderR3 (env : Env) (cs : CLHSMqk GK GD) (sk : cs.SecretKey) (n : ℕ)
    (fds : Lanes (CipherText GK GD)) : Except String (List Mpz) := do
  let (_, encY) ← recvCtLanes env fds (List.replicate n default) n
  parallelFor 0 n (List.replicate n (0 : Mpz)) fun i => cs.decrypt sk (encY.getD i default)

def ole3ReceiverR2 (env : Env) (cs : CLHSMqk GK GD) (pk : PublicKey GK GD) (xVals : List Mpz)
    (r : ℕ → cs.ClearText) (encR : ℕ → Mpz) (fds : Lanes (CipherText GK GD)) :
    Except String (Lanes (CipherText GK GD)) := do
  let n := xVals.length
  let lanes ← rfTransportLanes env
  let outFds ← openLanes (CipherText GK GD) env lanes n
  let pk ← cs.publicKey pk.elt
  let (fds, encA) ← recvCtLanes env fds (List.replicate n default) n
  let (_, encB) ← recvCtLanes env fds (List.replicate n default) n
  let encY ← parallelFor 0 n (List.replicate n default) fun i => do
    let encR ← encryptPlain cs pk (r i).1 (encR i)
    let ax ← cgCmult cs (encA.getD i default) (xVals.getD i 0)
    let u ← cgAdd cs ax (encB.getD i default)
    cgAdd cs u encR
  sendCtLanes env outFds encY n

def ole3ReceiverR3 (cs : CLHSMqk GK GD) (n : ℕ) (r : ℕ → cs.ClearText) (queue : List Mpz) :
    Except String (List Mpz) := do
  let (_, zVals) ← recvMpzLanes0 queue n
  if zVals.length ≠ n then throw "RF-OLE3 receiver z count mismatch"
  parallelFor 0 n (List.replicate n (0 : Mpz)) fun i =>
    return (zVals.getD i 0 - (r i).1) % cs.cleartextBound

structure Ole3Coins (cs : CLHSMqk GK GD) where
  sk : cs.SecretKey
  encA : ℕ → Mpz
  encB : ℕ → Mpz
  r : ℕ → cs.ClearText
  encR : ℕ → Mpz
  senderFirewall : Ole3FirewallCoins cs
  receiverFirewall : Ole3FirewallCoins cs

structure Ole3Result where
  z : List Mpz
  out : List Mpz
  senderDump : List Char
  receiverDump : List Char
  senderFirewallDump : List Char
  receiverFirewallDump : List Char

/-- Sender, sender firewall, receiver firewall, receiver, back to the sender, and
the plaintexts forward again. -/
def rfOle3Run (envs : RfEnvs) (cs : CLHSMqk GK GD) (coins : Ole3Coins cs)
    (xVals aVals bVals : List Mpz) : Except String Ole3Result := do
  let pk ← cs.keygenPk coins.sk
  let ab ← ole3SenderR1 envs.sender cs pk aVals bVals coins.encA coins.encB
  let srf ← ole3FirewallR1 envs.senderFirewall cs coins.senderFirewall pk ab
  let rrf ← ole3FirewallR1 envs.receiverFirewall cs coins.receiverFirewall srf.outKey srf.out
  let y ← ole3ReceiverR2 envs.receiver cs rrf.outKey xVals coins.r coins.encR rrf.out
  let y ← ole3FirewallR2 envs.receiverFirewall cs coins.receiverFirewall rrf y
  let y ← ole3FirewallR2 envs.senderFirewall cs coins.senderFirewall srf y
  let z ← ole3SenderR3 envs.sender cs coins.sk aVals.length y
  let queue ← ole3FirewallR3 envs.senderFirewall cs srf (sendMpzLanes0 [] z)
  let queue ← ole3FirewallR3 envs.receiverFirewall cs rrf queue
  let out ← ole3ReceiverR3 cs xVals.length coins.r queue
  let senderDump ← writeOleSenderInputs aVals bVals
  let receiverDump ← writeOleReceiverIo cs.cleartextBound xVals out
  let senderFirewallDump ← writeOleBlinds srf.aBlinds srf.bBlinds
  let receiverFirewallDump ← writeOleBlinds rrf.aBlinds rrf.bBlinds
  return ⟨z, out, senderDump, receiverDump, senderFirewallDump, receiverFirewallDump⟩

section

variable {α : Type} [Inhabited α] {env : Env} {n lanes chunk : ℕ} {c : ℕ → α}

def pairFlight (c d : ℕ → α) (n lanes : ℕ) : Lanes α :=
  lanesOf lanes fun lane => laneQueue c n lanes 0 n lane ++ laneQueue d n lanes 0 n lane

theorem recvMpzLanes0_eq (z : ℕ → Mpz) (n : ℕ) :
    recvMpzLanes0 ((List.range n).map z) n = .ok ([], (List.range n).map z) := by
  have hloop := recvLoop_eq z [] (List.replicate n (0 : Mpz)) 0 n (by simp)
  rw [List.append_nil, ← List.range_eq_range', Nat.zero_add] at hloop
  rw [recvMpzLanes0, hloop]
  exact congrArg (fun l => Except.ok ([], l)) (filled_all z 0)

theorem range_map_getD (z : ℕ → Mpz) {i : ℕ} (hi : i < n) :
    ((List.range n).map z).getD i 0 = z i := by
  rw [List.getD_eq_getElem _ _ (by simpa using hi), List.getElem_map, List.getElem_range]

theorem addPlainBlindModOle3_eq (z w : ℕ → Mpz) (n : ℕ) (q : Mpz) :
    addPlainBlindModOle3 ((List.range n).map z) ((List.range n).map w) q =
      .ok ((List.range n).map fun i => (z i + w i) % q) := by
  have hlen : ∀ v : ℕ → Mpz, ((List.range n).map v).length = n := fun v => by simp
  have hfill := parallelFor_eq (List.replicate n (0 : Mpz)) (Nat.zero_le n)
    (c := fun i => (z i + w i) % q) (f := fun i =>
      .ok ((((List.range n).map z).getD i 0 + ((List.range n).map w).getD i 0) % q)) fun i _ hi => by
      rw [range_map_getD z hi, range_map_getD w hi]
  rw [addPlainBlindModOle3, hlen, hlen, if_neg (not_not.mpr rfl)]
  exact hfill.trans (congrArg Except.ok (filled_all _ _))

end

theorem unmask_emod (q v b' b'' r : ℤ) :
    ((((v + r) % q + b') % q + b'') % q - r) % q = (v + b' + b'') % q := by
  have h1 : (v + r) % q + b' ≡ v + r + b' [ZMOD q] := (Int.mod_modEq _ _).add_right _
  have h2 : ((v + r) % q + b') % q + b'' ≡ v + r + b' + b'' [ZMOD q] :=
    ((Int.mod_modEq _ _).trans h1).add_right _
  have h3 : (((v + r) % q + b') % q + b'') % q - r ≡ v + r + b' + b'' - r [ZMOD q] :=
    ((Int.mod_modEq _ _).trans h2).sub_right _
  have heq : v + r + b' + b'' - r = v + b' + b'' := by ring
  exact heq ▸ h3

section

variable {cs : CLHSMqk GK GD} (coins : Ole3Coins cs) (n : ℕ) (xVals aVals bVals : List Mpz)

def blindedA (i : ℕ) : Mpz :=
  aVals.getD i 0 + (coins.senderFirewall.aBlind i).1 + (coins.receiverFirewall.aBlind i).1

def blindedB (i : ℕ) : Mpz :=
  bVals.getD i 0 + (coins.senderFirewall.bBlind i).1 + (coins.receiverFirewall.bBlind i).1

def ole3Z : List Mpz :=
  (List.range n).map fun i =>
    (blindedA coins aVals i * xVals.getD i 0 + bVals.getD i 0 + (coins.r i).1) % cs.q

def ole3Out : List Mpz :=
  (List.range n).map fun i =>
    (blindedA coins aVals i * xVals.getD i 0 + blindedB coins bVals i) % cs.q

theorem length_ole3Out : (ole3Out coins n xVals aVals bVals).length = n := by simp [ole3Out]

def ole3Blinds : (List Mpz × List Mpz) × (List Mpz × List Mpz) :=
  ((samplePlainBlindsOle3 n coins.senderFirewall.aBlind,
    samplePlainBlindsOle3 n coins.senderFirewall.bBlind),
    (samplePlainBlindsOle3 n coins.receiverFirewall.aBlind,
      samplePlainBlindsOle3 n coins.receiverFirewall.bBlind))

end

section

variable {env : Env} {n lanes chunk : ℕ} {cs : CLHSMqk GK GD} (hc : cs.compactVariant = false)
include hc

theorem transformCtFwdBatch_append (ht : Transport env n lanes chunk)
    (inQ outQ : ℕ → List (CipherText GK GD)) (K : GD) (ρ : Mpz) (coins : ℕ → Mpz) (m r : ℕ → ℤ) :
    transformCtFwdBatch env cs n ρ ⟨.delta (K * cs.base ^ ρ)⟩ coins
      (lanesOf lanes fun lane =>
        laneQueue (fun i => cs.cipher K (m i) (r i)) n lanes 0 n lane ++ inQ lane)
      (lanesOf lanes outQ) = .ok (lanesOf lanes inQ, lanesOf lanes fun lane => outQ lane ++
        laneQueue (fun i => cs.cipher (K * cs.base ^ ρ) (m i) (r i + coins i)) n lanes 0 n lane) := by
  have hround := firewallRound_append ht ⟨List.replicate n default,
      List.replicate n default⟩ inQ outQ (makeEncZeroPair_eq hc (K * cs.base ^ ρ) <| coins ·)
    (fun i _ => maulFwdRerand_eq hc K (m i) (r i) ρ (coins i)) (by simp) (by simp)
  rw [transformCtFwdBatch, hround]
  rfl

theorem transformCtInvBatch_append (ht : Transport env n lanes chunk)
    (inQ outQ : ℕ → List (CipherText GK GD)) (K : GD) (ρ : Mpz) (coins : ℕ → Mpz) (m r : ℕ → ℤ) :
    transformCtInvBatch env cs n ρ ⟨.delta K⟩ coins
      (lanesOf lanes fun lane =>
        laneQueue (fun i => cs.cipher (K * cs.base ^ ρ) (m i) (r i)) n lanes 0 n lane ++ inQ lane)
      (lanesOf lanes outQ) = .ok (lanesOf lanes inQ, lanesOf lanes fun lane => outQ lane ++
        laneQueue (fun i => cs.cipher K (m i) (r i + coins i)) n lanes 0 n lane) := by
  have hround := firewallRound_append ht ⟨List.replicate n default,
      List.replicate n default⟩ inQ outQ (makeEncZeroPair_eq hc K <| coins ·)
    (fun i _ => maulInvRerand_eq hc K (m i) (r i) ρ (coins i)) (by simp) (by simp)
  rw [transformCtInvBatch, hround]
  rfl

theorem transformCtFwdWithAdditiveBlindBatch_append (ht : Transport env n lanes chunk)
    (inQ outQ : ℕ → List (CipherText GK GD)) (K : GD) (ρ : Mpz) (draw : ℕ → cs.ClearText)
    (encCoins coins : ℕ → Mpz) (m r : ℕ → ℤ) :
    transformCtFwdWithAdditiveBlindBatch env cs n ρ ⟨.delta K⟩ ⟨.delta (K * cs.base ^ ρ)⟩
      (samplePlainBlindsOle3 n draw) encCoins coins
      (lanesOf lanes fun lane =>
        laneQueue (fun i => cs.cipher K (m i) (r i)) n lanes 0 n lane ++ inQ lane)
      (lanesOf lanes outQ) = .ok (lanesOf lanes inQ, lanesOf lanes fun lane => outQ lane ++
        laneQueue (fun i => cs.cipher (K * cs.base ^ ρ) (m i + (draw i).1)
          (r i + encCoins i + coins i)) n lanes 0 n lane) := by
  set c := fun i => cs.cipher K (m i) (r i) with hcdef
  set added := fun i => cs.cipher K (m i + (draw i).1) (r i + encCoins i) with hadded
  set c' := fun i => cs.cipher (K * cs.base ^ ρ) (m i + (draw i).1) (r i + encCoins i + coins i)
    with hc'def
  set pre : ℕ → EncZero GK GD := fun i =>
    ⟨.delta (cs.base ^ coins i), .delta ((K * cs.base ^ ρ) ^ coins i)⟩ with hpre
  have hnil : ∀ (d : ℕ → CipherText GK GD) (i lane : ℕ), laneQueue d n lanes i i lane = [] :=
    fun d i lane => laneQueue_eq_nil d n lanes (by omega)
  have hblind : ∀ i < n, encryptPlain cs ⟨.delta K⟩ ((samplePlainBlindsOle3 n draw).getD i 0)
      (encCoins i) = .ok (cs.cipher K (draw i).1 (encCoins i)) := fun i hi => by
    rw [samplePlainBlindsOle3, range_map_getD _ hi, encryptPlain_eq hc K (draw i).2]
  rw [transformCtFwdWithAdditiveBlindBatch, ht.chunk_eq, ok_bind]
  have hloop := foldlM_chunks_eq (ε := String) (n := n) ht.chunk_pos
    (g := fun k => (lanesOf lanes fun lane => laneQueue c n lanes k n lane ++ inQ lane,
      lanesOf lanes fun lane => outQ lane ++ laneQueue c' n lanes 0 k lane,
      filled c (List.replicate n default) 0 k, filled added (List.replicate n default) 0 k,
      filled pre (List.replicate n default) 0 k, filled c' (List.replicate n default) 0 k))
    (f := fun st be => do
      let (inFds, outFds, inBuf, added, pre, out) := st
      let (inFds, inBuf) ← recvCtLanesRange env inFds inBuf n be.1 be.2
      let added ← parallelFor be.1 be.2 added fun i => do
        let encBlind ← encryptPlain cs ⟨.delta K⟩ ((samplePlainBlindsOle3 n draw).getD i 0)
          (encCoins i)
        cgAdd cs (inBuf.getD i default) encBlind
      let pre ← parallelFor be.1 be.2 pre fun i =>
        makeEncZeroPair cs ⟨.delta (K * cs.base ^ ρ)⟩ (coins i)
      let out ← parallelFor be.1 be.2 out fun i =>
        maulFwdRerand cs (added.getD i default) ρ (pre.getD i default)
      let outFds ← sendCtLanesRange env outFds out n be.1 be.2
      return (inFds, outFds, inBuf, added, pre, out)) fun b e hbe hen => ?_
  · simp only [filled_self, hnil, List.append_nil] at hloop
    rw [hloop]
    rfl
  have hlen : e ≤ (List.replicate n (default : CipherText GK GD)).length := by simpa using hen
  have hadd : ∀ i, b ≤ i → i < e → (do
      let encBlind ← encryptPlain cs ⟨.delta K⟩ ((samplePlainBlindsOle3 n draw).getD i 0)
        (encCoins i)
      cgAdd cs ((filled c (List.replicate n default) 0 e).getD i default) encBlind) =
        .ok (added i) := fun i _ hi => by
    rw [hblind i (by omega), ok_bind, filled_getD_of_lt c hi hlen, cgAdd_eq hc]
  have hstep : ∀ i, b ≤ i → i < e →
      maulFwdRerand cs ((filled added (List.replicate n default) 0 e).getD i default) ρ
        ((filled pre (List.replicate n default) 0 e).getD i default) = .ok (c' i) := fun i _ hi => by
    rw [filled_getD_of_lt added hi hlen, filled_getD_of_lt pre hi (by simpa using hen),
      maulFwdRerand_eq hc]
  dsimp only
  rw [recvCtLanesRange_rest ht inQ hbe hen (by simp), ok_bind]
  dsimp only
  rw [parallelFor_filled hbe hadd, ok_bind,
    parallelFor_filled hbe fun i _ _ => makeEncZeroPair_eq hc (K * cs.base ^ ρ) (coins i), ok_bind,
    parallelFor_filled hbe hstep, ok_bind, sendCtLanesRange_rest ht outQ hbe hen (by simp)]
  rfl

theorem ole3FirewallR1_eq (ht : Transport env n lanes chunk)
    (hn : requiredEnvSize env "CG_RF_EXPECTED_N" = .ok n) (coins : Ole3FirewallCoins cs) (K : GD)
    (m m' r r' : ℕ → ℤ) :
    ole3FirewallR1 env cs coins ⟨.delta K⟩
      (pairFlight (fun i => cs.cipher K (m i) (r i)) (fun i => cs.cipher K (m' i) (r' i)) n lanes) =
      .ok ⟨⟨.delta K⟩, ⟨.delta (K * cs.base ^ coins.maul)⟩,
        pairFlight (fun i => cs.cipher (K * cs.base ^ coins.maul) (m i + (coins.aBlind i).1)
            (r i + coins.encBlind i + coins.a i))
          (fun i => cs.cipher (K * cs.base ^ coins.maul) (m' i) (r' i + coins.b i)) n lanes,
        samplePlainBlindsOle3 n coins.aBlind, samplePlainBlindsOle3 n coins.bBlind⟩ := by
  have ha := transformCtFwdWithAdditiveBlindBatch_append hc ht
    (fun lane => laneQueue (fun i => cs.cipher K (m' i) (r' i)) n lanes 0 n lane) (fun _ => []) K
    coins.maul coins.aBlind coins.encBlind coins.a m r
  have hb := transformCtFwdBatch_append hc ht (fun _ => []) (fun lane =>
    laneQueue (fun i => cs.cipher (K * cs.base ^ coins.maul) (m i + (coins.aBlind i).1)
      (r i + coins.encBlind i + coins.a i)) n lanes 0 n lane) K coins.maul coins.b m' r'
  simp only [List.append_nil, List.nil_append] at ha hb
  rw [ole3FirewallR1, hn, ok_bind, ht.lanes_eq, ok_bind, openLanes_nil ht, ok_bind,
    CLHSMqk.publicKey_eq hc, ok_bind, maulPk_eq hc, ok_bind, pairFlight]
  dsimp only
  rw [ha, ok_bind]
  dsimp only
  rw [hb]
  rfl

theorem ole3FirewallR2_eq (ht : Transport env n lanes chunk)
    (hn : requiredEnvSize env "CG_RF_EXPECTED_N" = .ok n) (coins : Ole3FirewallCoins cs) (K : GD)
    (m r : ℕ → ℤ) {st : Ole3FirewallState GK GD} (hkey : st.inKey = ⟨.delta K⟩) :
    ole3FirewallR2 env cs coins st
      (inFlight (fun i => cs.cipher (K * cs.base ^ coins.maul) (m i) (r i)) n lanes 0 n) =
      .ok (inFlight (fun i => cs.cipher K (m i) (r i + coins.y i)) n lanes 0 n) := by
  have hinv := transformCtInvBatch_append hc ht (fun _ => []) (fun _ => []) K coins.maul coins.y m r
  simp only [List.append_nil, List.nil_append] at hinv
  rw [ole3FirewallR2, hn, ok_bind, ht.lanes_eq, ok_bind, openLanes_nil ht, ok_bind, hkey, inFlight,
    hinv]
  rfl

omit hc in
theorem ole3FirewallR3_eq (hn : requiredEnvSize env "CG_RF_EXPECTED_N" = .ok n)
    {st : Ole3FirewallState GK GD} {draw : ℕ → cs.ClearText}
    (hblinds : st.bBlinds = samplePlainBlindsOle3 n draw) (z : ℕ → Mpz) :
    ole3FirewallR3 env cs st ((List.range n).map z) =
      .ok ((List.range n).map fun i => (z i + (draw i).1) % cs.q) := by
  rw [ole3FirewallR3, hn, ok_bind, recvMpzLanes0_eq, ok_bind]
  dsimp only
  rw [hblinds, samplePlainBlindsOle3, addPlainBlindModOle3_eq]
  rfl

theorem ole3SenderR1_eq {aVals bVals : List Mpz} (ht : Transport env aVals.length lanes chunk)
    (hbn : bVals.length = aVals.length) (ha : ∀ a ∈ aVals, 0 ≤ a ∧ a < cs.cleartextBound)
    (hb : ∀ b ∈ bVals, 0 ≤ b ∧ b < cs.cleartextBound) (K : GD) (encA encB : ℕ → Mpz) :
    ole3SenderR1 env cs ⟨.delta K⟩ aVals bVals encA encB =
      .ok (pairFlight (fun i => cs.cipher K (aVals.getD i 0) (encA i))
        (fun i => cs.cipher K (bVals.getD i 0) (encB i)) aVals.length lanes) := by
  set n := aVals.length with hn
  have hrange : ∀ {l : List Mpz}, l.length = n → (∀ v ∈ l, 0 ≤ v ∧ v < cs.cleartextBound) →
      ∀ i < n, 0 ≤ l.getD i 0 ∧ l.getD i 0 < cs.cleartextBound := fun hl h i hi => by
    rw [List.getD_eq_getElem _ _ (hl.symm ▸ hi)]
    exact h _ (List.getElem_mem _)
  have henc := parallelFor_eq (List.replicate n default) (Nat.zero_le n)
    (c := fun i => (cs.cipher K (aVals.getD i 0) (encA i), cs.cipher K (bVals.getD i 0) (encB i)))
    (f := fun i => do
      let aCt ← cs.clearText (aVals.getD i 0)
      let bCt ← cs.clearText (bVals.getD i 0)
      let a ← cs.encrypt ⟨.delta K⟩ aCt (encA i)
      let b ← cs.encrypt ⟨.delta K⟩ bCt (encB i)
      return (a, b)) fun i _ hi => by
      rw [CLHSMqk.clearText_eq (hrange rfl ha i hi), ok_bind,
        CLHSMqk.clearText_eq (hrange hbn hb i hi), ok_bind, CLHSMqk.encrypt_eq hc, ok_bind,
        CLHSMqk.encrypt_eq hc]
      rfl
  rw [filled_all] at henc
  have hsendA := sendCtLanes_append (c := fun i => cs.cipher K (aVals.getD i 0) (encA i)) ht
    ((List.range n).map fun i => cs.cipher K (aVals.getD i 0) (encA i)) (fun _ => [])
    (by simp) fun i hi => by rw [List.getD_eq_getElem _ _ (by simpa using hi)]; simp
  have hsendB := sendCtLanes_append (c := fun i => cs.cipher K (bVals.getD i 0) (encB i)) ht
    ((List.range n).map fun i => cs.cipher K (bVals.getD i 0) (encB i))
    (fun lane => laneQueue (fun i => cs.cipher K (aVals.getD i 0) (encA i)) n lanes 0 n lane)
    (by simp) fun i hi => by rw [List.getD_eq_getElem _ _ (by simpa using hi)]; simp
  simp only [List.nil_append] at hsendA
  rw [ole3SenderR1]
  simp only [← hn]
  rw [ht.lanes_eq, ok_bind, openLanes_nil ht, ok_bind, henc, ok_bind, List.map_map, List.map_map]
  exact (congrArg (· >>= _) hsendA).trans hsendB

theorem ole3SenderR3_eq (ht : Transport env n lanes chunk) (sk : cs.SecretKey) (m r : ℕ → ℤ) :
    ole3SenderR3 env cs sk n
      (inFlight (fun i => cs.cipher (cs.base ^ sk.1) (m i) (r i)) n lanes 0 n) =
      .ok ((List.range n).map fun i => m i % cs.q) := by
  have hrecv := recvCtLanes_append (c := fun i => cs.cipher (cs.base ^ sk.1) (m i) (r i)) ht
    (List.replicate n default) (fun _ => []) (by simp)
  have hdec := parallelFor_eq (List.replicate n (0 : Mpz)) (Nat.zero_le n)
    (c := fun i => m i % cs.q) (f := fun i => cs.decrypt sk
      ((filled (fun i => cs.cipher (cs.base ^ sk.1) (m i) (r i)) (List.replicate n default) 0 n).getD
        i default)) fun i _ hi => by
      rw [filled_getD_of_lt _ hi (by simp), CLHSMqk.decrypt_eq hc]
  simp only [List.append_nil] at hrecv
  rw [ole3SenderR3, inFlight, hrecv, ok_bind]
  exact hdec.trans (congrArg Except.ok (filled_all _ _))

theorem ole3ReceiverR2_eq {xVals : List Mpz} (ht : Transport env xVals.length lanes chunk) (K : GD)
    (mask : ℕ → cs.ClearText) (encR : ℕ → Mpz) (m m' r r' : ℕ → ℤ) :
    ole3ReceiverR2 env cs ⟨.delta K⟩ xVals mask encR
      (pairFlight (fun i => cs.cipher K (m i) (r i)) (fun i => cs.cipher K (m' i) (r' i))
        xVals.length lanes) =
      .ok (inFlight (fun i => cs.cipher K (m i * xVals.getD i 0 + m' i + (mask i).1)
        (r i * xVals.getD i 0 + r' i + encR i)) xVals.length lanes 0 xVals.length) := by
  set n := xVals.length with hn
  set c := fun i => cs.cipher K (m i) (r i) with hcdef
  set d := fun i => cs.cipher K (m' i) (r' i) with hddef
  set c' := fun i => cs.cipher K (m i * xVals.getD i 0 + m' i + (mask i).1)
    (r i * xVals.getD i 0 + r' i + encR i) with hc'def
  have hrecvA := recvCtLanes_append (c := c) ht (List.replicate n default)
    (fun lane => laneQueue d n lanes 0 n lane) (by simp)
  have hrecvB := recvCtLanes_append (c := d) ht (List.replicate n default)
    (fun _ => []) (by simp)
  have hy := parallelFor_eq (List.replicate n default) (Nat.zero_le n) (c := c')
    (f := fun i => do
      let encR ← encryptPlain cs ⟨.delta K⟩ (mask i).1 (encR i)
      let ax ← cgCmult cs ((filled c (List.replicate n default) 0 n).getD i default)
        (xVals.getD i 0)
      let u ← cgAdd cs ax ((filled d (List.replicate n default) 0 n).getD i default)
      cgAdd cs u encR) fun i _ hi => by
      rw [encryptPlain_eq hc K (mask i).2, ok_bind, filled_getD_of_lt c hi (by simp), cgCmult_eq hc,
        ok_bind, filled_getD_of_lt d hi (by simp), cgAdd_eq hc, ok_bind, cgAdd_eq hc]
  have hsend := sendCtLanes_append (c := c') ht
    (filled c' (List.replicate n default) 0 n) (fun _ => []) (by simp [length_filled])
    fun i hi => filled_getD_of_lt c' hi (by simp)
  simp only [List.append_nil] at hrecvB
  simp only [List.nil_append] at hsend
  rw [ole3ReceiverR2]
  simp only [← hn]
  rw [ht.lanes_eq, ok_bind, openLanes_nil ht, ok_bind, CLHSMqk.publicKey_eq hc, ok_bind, pairFlight,
    hrecvA, ok_bind]
  dsimp only
  rw [hrecvB, ok_bind]
  dsimp only
  rw [hy, ok_bind, hsend]
  rfl

omit hc in
theorem ole3ReceiverR3_eq (n : ℕ) (mask : ℕ → cs.ClearText) (z : ℕ → Mpz) :
    ole3ReceiverR3 cs n mask ((List.range n).map z) =
      .ok ((List.range n).map fun i => (z i - (mask i).1) % cs.q) := by
  have hout := parallelFor_eq (List.replicate n (0 : Mpz)) (Nat.zero_le n)
    (c := fun i => (z i - (mask i).1) % cs.q)
    (f := fun i => .ok ((((List.range n).map z).getD i 0 - (mask i).1) % cs.cleartextBound))
    fun i _ hi => by
      rw [range_map_getD z hi]
      rfl
  rw [ole3ReceiverR3, recvMpzLanes0_eq, ok_bind]
  dsimp only
  rw [if_neg (by simp)]
  exact hout.trans (congrArg Except.ok (filled_all _ _))

theorem rfOle3Run_eq {envs : RfEnvs} (ht : RfTransport envs n lanes chunk)
    (coins : Ole3Coins cs) {xVals aVals bVals : List Mpz} (hxn : xVals.length = n)
    (han : aVals.length = n) (hbn : bVals.length = n)
    (ha : ∀ a ∈ aVals, 0 ≤ a ∧ a < cs.cleartextBound)
    (hb : ∀ b ∈ bVals, 0 ≤ b ∧ b < cs.cleartextBound) :
    rfOle3Run envs cs coins xVals aVals bVals =
      .ok ⟨ole3Z coins n xVals aVals bVals, ole3Out coins n xVals aVals bVals,
        header "OLE_SENDER_V1" aVals.length ++ pairLines aVals bVals,
        header "OLE_RECEIVER_V1" xVals.length ++ mpzText cs.cleartextBound ++
          '\n' :: pairLines xVals (ole3Out coins n xVals aVals bVals),
        (blindTexts (ole3Blinds coins n)).1, (blindTexts (ole3Blinds coins n)).2⟩ := by
  subst han
  set n := aVals.length with hn
  set K := cs.base ^ coins.sk.1 with hK
  set K' := K * cs.base ^ coins.senderFirewall.maul with hK'
  set a' := fun i => aVals.getD i 0 + (coins.senderFirewall.aBlind i).1 with ha'
  set v := fun i => (a' i + (coins.receiverFirewall.aBlind i).1) * xVals.getD i 0 + bVals.getD i 0
    with hv
  -- the hops, in the order of the run
  have hsender := ole3SenderR1_eq hc ht.sender hbn ha hb K coins.encA coins.encB
  have hsrf := ole3FirewallR1_eq hc ht.senderFirewall ht.senderFirewall_n coins.senderFirewall K
    (fun i => aVals.getD i 0) (fun i => bVals.getD i 0) coins.encA coins.encB
  have hrrf := ole3FirewallR1_eq hc ht.receiverFirewall ht.receiverFirewall_n coins.receiverFirewall
    K' a' (fun i => bVals.getD i 0)
    (fun i => coins.encA i + coins.senderFirewall.encBlind i + coins.senderFirewall.a i)
    (fun i => coins.encB i + coins.senderFirewall.b i)
  have hrec := ole3ReceiverR2_eq hc (hxn.symm ▸ ht.receiver : Transport envs.receiver xVals.length lanes chunk)
    (K' * cs.base ^ coins.receiverFirewall.maul) coins.r coins.encR
    (fun i => a' i + (coins.receiverFirewall.aBlind i).1) (fun i => bVals.getD i 0)
    (fun i => coins.encA i + coins.senderFirewall.encBlind i + coins.senderFirewall.a i +
      coins.receiverFirewall.encBlind i + coins.receiverFirewall.a i)
    (fun i => coins.encB i + coins.senderFirewall.b i + coins.receiverFirewall.b i)
  rw [hxn] at hrec
  have hz : ∀ st : Ole3FirewallState GK GD,
      st.bBlinds = samplePlainBlindsOle3 n coins.senderFirewall.bBlind → _ := fun st hst =>
    ole3FirewallR3_eq ht.senderFirewall_n hst fun i => (v i + (coins.r i).1) % cs.q
  have hz' : ∀ st : Ole3FirewallState GK GD,
      st.bBlinds = samplePlainBlindsOle3 n coins.receiverFirewall.bBlind → _ := fun st hst =>
    ole3FirewallR3_eq ht.receiverFirewall_n hst
      fun i => ((v i + (coins.r i).1) % cs.q + (coins.senderFirewall.bBlind i).1) % cs.q
  have hout := ole3ReceiverR3_eq n coins.r fun i => (((v i + (coins.r i).1) % cs.q +
    (coins.senderFirewall.bBlind i).1) % cs.q + (coins.receiverFirewall.bBlind i).1) % cs.q
  rw [rfOle3Run, CLHSMqk.keygenPk_eq hc, ok_bind, hsender, ok_bind, hsrf, ok_bind]
  dsimp only
  rw [hrrf, ok_bind]
  dsimp only
  rw [hrec, ok_bind, ole3FirewallR2_eq hc ht.receiverFirewall ht.receiverFirewall_n _ K' _ _ rfl,
    ok_bind, ole3FirewallR2_eq hc ht.senderFirewall ht.senderFirewall_n _ K _ _ rfl, ok_bind,
    ole3SenderR3_eq hc ht.sender, ok_bind, sendMpzLanes0, List.nil_append, hz _ rfl, ok_bind,
    hz' _ rfl, ok_bind, hxn, hout, ok_bind]
  have hy : ((List.range n).map fun i => ((((v i + (coins.r i).1) % cs.q +
      (coins.senderFirewall.bBlind i).1) % cs.q + (coins.receiverFirewall.bBlind i).1) % cs.q -
      (coins.r i).1) % cs.q) = ole3Out coins n xVals aVals bVals :=
    List.map_congr_left fun i _ => by
      rw [unmask_emod]
      simp only [hv, ha', blindedA, blindedB, add_assoc]
  have hlen : ∀ draw draw' : ℕ → cs.ClearText,
      (samplePlainBlindsOle3 n draw).length = (samplePlainBlindsOle3 n draw').length :=
    fun draw draw' => (length_samplePlainBlindsOle3 n draw).trans
      (length_samplePlainBlindsOle3 n draw').symm
  rw [hy, writeOleSenderInputs_eq hbn.symm, ok_bind,
    writeOleReceiverIo_eq _ (hxn.trans (length_ole3Out coins n xVals aVals bVals).symm), ok_bind,
    writeOleBlinds_eq (hlen _ _), ok_bind, writeOleBlinds_eq (hlen _ _), ok_bind,
    hxn]
  rfl

/-- The three-round evaluation returns the affine relation of the blinded
tuple, the sender sees it under the mask of the receiver only, and the offline
checker accepts the dumps. -/
theorem rfOle3Run_correct {envs : RfEnvs} (ht : RfTransport envs n lanes chunk)
    (coins : Ole3Coins cs) {xVals aVals bVals : List Mpz} (hxn : xVals.length = n)
    (han : aVals.length = n) (hbn : bVals.length = n)
    (ha : ∀ a ∈ aVals, 0 ≤ a ∧ a < cs.cleartextBound)
    (hb : ∀ b ∈ bVals, 0 ≤ b ∧ b < cs.cleartextBound) :
    ∃ res, rfOle3Run envs cs coins xVals aVals bVals = .ok res ∧
      res.out = ((List.range n).map fun i =>
        ((aVals.getD i 0 + (coins.senderFirewall.aBlind i).1 + (coins.receiverFirewall.aBlind i).1) *
          xVals.getD i 0 + (bVals.getD i 0 + (coins.senderFirewall.bBlind i).1 +
          (coins.receiverFirewall.bBlind i).1)) % cs.q) ∧
      res.z = ((List.range n).map fun i =>
        ((aVals.getD i 0 + (coins.senderFirewall.aBlind i).1 + (coins.receiverFirewall.aBlind i).1) *
          xVals.getD i 0 + bVals.getD i 0 + (coins.r i).1) % cs.q) ∧
      ∀ env, cgValidateCount env n false = .ok () →
        checkBatchOle env res.senderDump res.receiverDump
          (some (res.senderFirewallDump, res.receiverFirewallDump)) = .ok 0 := by
  classical
  refine ⟨_, rfOle3Run_eq hc ht coins hxn han hbn ha hb, rfl, rfl, fun env hcount => ?_⟩
  have hq : (1 : ℤ) < cs.q := by exact_mod_cast cs.prime_q.one_lt
  have hsan : SanitisedOle cs.q (some (ole3Blinds coins n)) aVals bVals xVals
      (ole3Out coins n xVals aVals bVals) n := fun i hi => by
    simp only [blindSum, ole3Blinds, samplePlainBlindsOle3, range_map_getD _ hi, ole3Out, blindedA,
      blindedB, ← add_assoc]
  have hcheck := checkBatchOle_eq hq hcount han hbn hxn (length_ole3Out coins n xVals aVals bVals)
    (some (ole3Blinds coins n)) fun b hb => by
      rw [Option.mem_some_iff] at hb
      exact hb ▸ ⟨length_samplePlainBlindsOle3 n _, length_samplePlainBlindsOle3 n _,
        length_samplePlainBlindsOle3 n _, length_samplePlainBlindsOle3 n _⟩
  rw [if_pos hsan] at hcheck
  exact hcheck

end

def smallDraw (k : ℕ) : ℕ → smallScheme.ClearText := fun i =>
  ⟨((i + k) % 5 : ℕ), Int.natCast_nonneg _, Int.ofNat_lt.mpr (Nat.mod_lt _ (by decide))⟩

def smallOle3Coins : Ole3Coins smallScheme :=
  ⟨⟨7, by decide⟩, fun i => 3 * i + 1, fun i => i * i, smallDraw 4, fun i => 2 * i,
    ⟨11, smallDraw 1, smallDraw 2, fun i => i, fun i => 5 * i, fun _ => 3, fun i => i + 1⟩,
    ⟨4, smallDraw 0, smallDraw 3, fun _ => 2, fun i => i, fun i => 7 * i, fun _ => 0⟩⟩

theorem rfOle3Run_correct_small :
    ∃ res, rfOle3Run smallEnvs smallScheme smallOle3Coins [0, 1, 2, 3, 4] [4, 3, 2, 1, 0]
        [1, 1, 1, 2, 2] = .ok res ∧
      res.out = [1, 4, 4, 2, 1] ∧ res.z = [0, 2, 1, 3, 1] ∧
      checkBatchOle (smallEnv "5") res.senderDump res.receiverDump
        (some (res.senderFirewallDump, res.receiverFirewallDump)) = .ok 0 := by
  obtain ⟨res, hrun, hout, hz, hcheck⟩ := rfOle3Run_correct rfl smallEnvs_transport
    smallOle3Coins (rfl : ([0, 1, 2, 3, 4] : List Mpz).length = 5)
    (rfl : ([4, 3, 2, 1, 0] : List Mpz).length = 5) (rfl : ([1, 1, 1, 2, 2] : List Mpz).length = 5)
    (by decide) (by decide)
  exact ⟨res, hrun, hout.trans (by decide), hz.trans (by decide), hcheck _ (by decide)⟩

end RfClassGroups
